import Mathlib
import Reprint.Proofs.Discovery
import Reprint.Proofs.Exchange
import Reprint.Proofs.InStep
import Reprint.Proofs.Surroundings
/-!
Trees with the names of their files exchanged. A permutation of names acts on spans, and so on nodes, units and regions.
Names are only ever compared with each other, so whatever is found in a tree is found in the renamed tree as well. Main
statements: the search for counterparts and parents, and the discovery of regions, go along with the renaming
(`counterpart?_renamed`, `parent?_renamed`, `find_renamed`).
-/

namespace Reprint

/-! ### The action on trees -/

def Span.renamed (ρ : Equiv.Perm String) (s : Span) : Span := { s with file := ρ s.file }

def Name.renamed (ρ : Equiv.Perm String) (n : Name) : Name := { n with span := n.span.map (Span.renamed ρ) }

def ModifierToken.renamed (ρ : Equiv.Perm String) (m : ModifierToken) : ModifierToken :=
  { m with span := m.span.map (Span.renamed ρ) }

mutual

/-- A tree with the names of its files exchanged. -/
@[simp] def Node.renamed (ρ : Equiv.Perm String) : Node → Node
  | .mk i s k => .mk i (s.map (Span.renamed ρ)) (Kind.renamed ρ k)

/-- A layer with the names of its files exchanged, here and below. -/
@[simp] def Kind.renamed (ρ : Equiv.Perm String) : Kind Node → Kind Node
  | .package pid stats => .package (pid.renamed ρ) (Node.renamedAll ρ stats)
  | .classDef mods name tparams impl =>
    .classDef (mods.map (·.renamed ρ)) (name.renamed ρ) (Node.renamedAll ρ tparams) (impl.renamed ρ)
  | .objectDef mods name impl => .objectDef (mods.map (·.renamed ρ)) (name.renamed ρ) (impl.renamed ρ)
  | .template parents superArgs self body =>
    .template (Node.renamedAll ρ parents) (Node.renamedAll ρ superArgs) (Node.renamedIn ρ self) (Node.renamedAll ρ body)
  | .valDef mods name tpt rhs =>
    .valDef (mods.map (·.renamed ρ)) (name.renamed ρ) (Node.renamedIn ρ tpt) (Node.renamedIn ρ rhs)
  | .methodDef mods name tparams vparamss tpt rhs =>
    .methodDef (mods.map (·.renamed ρ)) (name.renamed ρ) (Node.renamedAll ρ tparams) (Node.renamedLists ρ vparamss)
      (Node.renamedIn ρ tpt) (Node.renamedIn ρ rhs)
  | .typeDef mods name tparams rhs =>
    .typeDef (mods.map (·.renamed ρ)) (name.renamed ρ) (Node.renamedAll ρ tparams) (Node.renamedIn ρ rhs)
  | .ident name => .ident name
  | .literal value => .literal value
  | .thisRef qual => .thisRef (qual.map (·.renamed ρ))
  | .select qualifier name => .select (qualifier.renamed ρ) (name.renamed ρ)
  | .apply callee args => .apply (callee.renamed ρ) (Node.renamedAll ρ args)
  | .newExpr tpt => .newExpr (tpt.renamed ρ)
  | .typed expr tpt => .typed (expr.renamed ρ) (tpt.renamed ρ)
  | .matchExpr selector cases => .matchExpr (selector.renamed ρ) (Node.renamedAll ρ cases)
  | .caseClause pat guard body => .caseClause (pat.renamed ρ) (Node.renamedIn ρ guard) (body.renamed ρ)
  | .bind name body => .bind (name.renamed ρ) (body.renamed ρ)
  | .ifExpr cond thenBranch elseBranch =>
    .ifExpr (cond.renamed ρ) (thenBranch.renamed ρ) (Node.renamedIn ρ elseBranch)
  | .lambda params body => .lambda (Node.renamedAll ρ params) (body.renamed ρ)
  | .importDecl expr selectors => .importDecl (expr.renamed ρ) (Node.renamedAll ρ selectors)
  | .importSelector name rename => .importSelector (name.renamed ρ) (rename.map (·.renamed ρ))
  | .block stats => .block (Node.renamedAll ρ stats)
  | .nameToken name => .nameToken name
  | .modifierToken flag => .modifierToken flag
  | .selfType name tpt => .selfType (name.renamed ρ) (Node.renamedIn ρ tpt)
  | .superCall callee args => .superCall (callee.renamed ρ) (Node.renamedAll ρ args)

def Node.renamedAll (ρ : Equiv.Perm String) : List Node → List Node
  | [] => []
  | n :: ns => n.renamed ρ :: Node.renamedAll ρ ns

def Node.renamedIn (ρ : Equiv.Perm String) : Option Node → Option Node
  | none => none
  | some n => some (n.renamed ρ)

def Node.renamedLists (ρ : Equiv.Perm String) : List (List Node) → List (List Node)
  | [] => []
  | l :: ls => Node.renamedAll ρ l :: Node.renamedLists ρ ls

end

/-! ### Spans -/

namespace Span
variable (ρ : Equiv.Perm String) (s t : Span)

@[simp] theorem start_renamed : (s.renamed ρ).start = s.start := rfl

@[simp] theorem point_renamed : (s.renamed ρ).point = s.point := rfl

@[simp] theorem stop_renamed : (s.renamed ρ).stop = s.stop := rfl

@[simp] theorem transparent_renamed : (s.renamed ρ).transparent = s.transparent := rfl

@[simp] theorem file_renamed : (s.renamed ρ).file = ρ s.file := rfl

theorem file_beq_renamed : ((s.renamed ρ).file == (t.renamed ρ).file) = (s.file == t.file) := by
  rw [Bool.eq_iff_iff, beq_iff_eq, beq_iff_eq]
  exact ρ.injective.eq_iff

@[simp] theorem sameRange_renamed : (s.renamed ρ).sameRange (t.renamed ρ) = s.sameRange t := by
  rw [sameRange, file_beq_renamed]
  rfl

@[simp] theorem includes_renamed : (s.renamed ρ).includes (t.renamed ρ) = s.includes t := by
  rw [includes, file_beq_renamed]
  rfl

@[simp] theorem properlyIncludes_renamed : (s.renamed ρ).properlyIncludes (t.renamed ρ) = s.properlyIncludes t := by
  simp [properlyIncludes]

end Span

/-! ### Nodes -/

namespace Node
variable (ρ : Equiv.Perm String)

@[simp] theorem renamedAll_eq (l : List Node) : renamedAll ρ l = l.map (renamed ρ) := by
  induction l with
  | nil => rfl
  | cons n l ih => rw [renamedAll, ih]; rfl

@[simp] theorem renamedIn_eq (o : Option Node) : renamedIn ρ o = o.map (renamed ρ) := by cases o <;> rfl

@[simp] theorem renamedLists_eq (ls : List (List Node)) : renamedLists ρ ls = ls.map (·.map (renamed ρ)) := by
  induction ls with
  | nil => rfl
  | cons l ls ih => rw [renamedLists, ih, renamedAll_eq]; rfl

section Fields
variable (n m : Node)

@[simp] theorem identity_renamed : (n.renamed ρ).identity = n.identity := by cases n; rfl

@[simp] theorem span_renamed : (n.renamed ρ).span = n.span.map (Span.renamed ρ) := by cases n; rfl

@[simp] theorem kind_renamed : (n.renamed ρ).kind = n.kind.renamed ρ := by cases n; rfl

@[simp] theorem tag_renamed : (n.renamed ρ).tag = n.tag := by
  obtain ⟨i, s, k⟩ := n
  cases k <;> rfl

@[simp] theorem name?_renamed : (n.renamed ρ).name? = n.name? := by
  obtain ⟨i, s, k⟩ := n
  cases k <;> rfl

@[simp] theorem modifiers_renamed : (n.renamed ρ).modifiers = n.modifiers.map (·.renamed ρ) := by
  obtain ⟨i, s, k⟩ := n
  cases k <;> rfl

@[simp] theorem hasModifier_renamed (f : Modifier) : (n.renamed ρ).hasModifier f = n.hasModifier f := by
  rw [hasModifier, modifiers_renamed, List.any_map]
  rfl

@[simp] theorem isDefinition_renamed : (n.renamed ρ).isDefinition = n.isDefinition := by simp [isDefinition]

@[simp] theorem isSequence_renamed : (n.renamed ρ).isSequence = n.isSequence := by simp [isSequence]

@[simp] theorem isParameter_renamed : (n.renamed ρ).isParameter = n.isParameter := by simp [isParameter]

@[simp] theorem isEarly_renamed : (n.renamed ρ).isEarly = n.isEarly := by simp [isEarly]

@[simp] theorem isMember_renamed : (n.renamed ρ).isMember = n.isMember := by simp [isMember]

@[simp] theorem start?_renamed : (n.renamed ρ).start? = n.start? := by simp [start?, Function.comp_def]

@[simp] theorem layoutSpan_renamed : (n.renamed ρ).layoutSpan = n.layoutSpan.map (Span.renamed ρ) := by
  rw [layoutSpan, layoutSpan, span_renamed, Option.filter_map]
  rfl

@[simp] theorem same_renamed : (n.renamed ρ).same (m.renamed ρ) = n.same m := by simp [same]

@[simp] theorem sameSlot_renamed : (n.renamed ρ).sameSlot (m.renamed ρ) = n.sameSlot m := by
  unfold sameSlot
  cases hn : n.span <;> cases hm : m.span <;> simp [hn, hm]

@[simp] theorem flags_renamed : (n.renamed ρ).flags = n.flags := by
  rw [flags, flags, funext (hasModifier_renamed ρ n)]

@[simp] theorem selected_renamed : (n.renamed ρ).selected = n.selected := by
  obtain ⟨i, s, k⟩ := n
  cases k <;> simp [selected, kind, Name.renamed, name?, Kind.name?, Function.comp_def]

end Fields

/-! ### Children -/

theorem nameTokens_renamed (i : Identity) (part : Part) (name : Name) :
    nameTokens i part (name.renamed ρ) = (nameTokens i part name).map (renamed ρ) := by
  cases hs : name.span <;> simp [nameTokens, Name.renamed, hs]

theorem modifierTokens_renamed (i : Identity) (mods : List ModifierToken) :
    modifierTokens i (mods.map (·.renamed ρ)) = (modifierTokens i mods).map (renamed ρ) := by
  simp [modifierTokens, List.zipIdx_map, List.filterMap_map, List.map_filterMap, Function.comp_def, ModifierToken.renamed]

theorem superCall_renamed (i : Identity) (parent : Node) (args : List Node) :
    superCall i (parent.renamed ρ) (args.map (renamed ρ)) = (superCall i parent args).renamed ρ := by
  have hspan : (superCall i (parent.renamed ρ) (args.map (renamed ρ))).span =
      (superCall i parent args).span.map (Span.renamed ρ) := by
    rw [span_superCall, span_superCall, span_renamed, List.getLast?_map]
    cases parent.span with
    | none => rfl
    | some s =>
      cases args.getLast? with
      | none => rfl
      | some last =>
        cases hlast : last.span <;> simp [hlast, Span.renamed, Span.range]
  show Node.mk _ (superCall i (parent.renamed ρ) (args.map (renamed ρ))).span _ =
    .mk _ ((superCall i parent args).span.map (Span.renamed ρ)) _
  rw [hspan]
  simp

theorem inTextOrder_renamed (l : List Node) : inTextOrder (l.map (renamed ρ)) = (inTextOrder l).map (renamed ρ) := by
  have hall : (l.map (renamed ρ)).all (·.span.isSome) = l.all (·.span.isSome) := by simp [Function.comp_def]
  unfold inTextOrder
  rw [hall]
  split
  · rw [List.map_mergeSort]
    simp
  · rfl

theorem parentZone_renamed (i : Identity) (parents args : List Node) :
    parentZone i (parents.map (renamed ρ)) (args.map (renamed ρ)) = (parentZone i parents args).map (renamed ρ) := by
  cases parents with
  | nil => rfl
  | cons first rest =>
    cases args with
    | nil => rfl
    | cons a as => simp [parentZone, ← superCall_renamed]

@[simp] theorem children_renamed (n : Node) : (n.renamed ρ).children = n.children.map (renamed ρ) := by
  obtain ⟨i, s, k⟩ := n
  cases k with
  | template parents args self body =>
    have hfilter : ∀ {f : Node → Bool}, (∀ m, f (renamed ρ m) = f m) →
        (body.map (renamed ρ)).filter f = (body.filter f).map (renamed ρ) := by
      intro f hf
      rw [List.filter_map, show f ∘ renamed ρ = f from funext hf]
    have hmembers : (self.map (renamed ρ)).toList ++ (body.filter isMember).map (renamed ρ) =
        (self.toList ++ body.filter isMember).map (renamed ρ) := by
      rw [Option.toList_map, List.map_append]
    simp only [children, renamed, Kind.renamed, zones, renamedAll_eq, renamedIn_eq, hfilter (isParameter_renamed ρ),
      hfilter (isEarly_renamed ρ), hfilter (isMember_renamed ρ), hmembers, parentZone_renamed, inTextOrder_renamed,
      List.flatMap_cons, List.flatMap_nil]
    simp only [List.map_append, List.map_nil]
  | _ => simp [children, nameTokens_renamed, modifierTokens_renamed, List.map_flatten,
      Option.toList_map, List.map_flatMap, List.flatMap_map]

theorem contentDiffers_of_isDefinition {a b : Node} (h : a.isDefinition = true) :
    a.contentDiffers b = (a.tag != b.tag || (a.isDefinition && (a.name? != b.name? || a.flags != b.flags))) := by
  obtain ⟨i, s, k⟩ := a
  cases k <;> first | (cases h; done) | rfl

@[simp] theorem contentDiffers_renamed (n m : Node) :
    (n.renamed ρ).contentDiffers (m.renamed ρ) = n.contentDiffers m := by
  have hne : ∀ {a b : Node}, a.tag ≠ b.tag → a.contentDiffers b = true := fun h =>
    Bool.eq_true_of_not_eq_false fun h' => h (tag_eq_of_not_differs h')
  by_cases hdef : n.isDefinition = true
  · rw [contentDiffers_of_isDefinition hdef, contentDiffers_of_isDefinition (by simpa using hdef)]
    simp
  by_cases htag : n.tag = m.tag
  · obtain ⟨i, s, k⟩ := n
    obtain ⟨j, t, l⟩ := m
    cases k <;> first | (exact absurd rfl hdef) | skip
    all_goals cases l <;> first | (cases htag; done) | rfl | skip
    case pos.importDecl.importDecl => simp [contentDiffers, kind, Function.comp_def]
    all_goals simp [contentDiffers, selected, kind, Name.renamed, Function.comp_def]
  · rw [hne htag, hne (by simpa using htag)]

/-! ### Searches -/

theorem standsAt_renamed (q : Span) (n : Node) : (n.renamed ρ).standsAt (q.renamed ρ) = n.standsAt q := by
  cases h : n.span <;> simp [standsAt, h]

theorem atRange_renamed (q : Span) (n : Node) : (n.renamed ρ).atRange (q.renamed ρ) = (n.atRange q).map (renamed ρ) := by
  induction n using children_induction with
  | step n ih =>
    have hall : (n.renamed ρ).span.all (·.includes (q.renamed ρ)) = n.span.all (·.includes q) := by
      cases h : n.span <;> simp [h]
    have hbelow : (n.renamed ρ).children.flatMap (atRange (q.renamed ρ)) =
        (n.children.flatMap (atRange q)).map (renamed ρ) := by
      rw [children_renamed, List.flatMap_map, List.map_flatMap]
      exact List.flatMap_congr ih
    rw [atRange_eq, atRange_eq, standsAt_renamed, hall, hbelow, List.map_append]
    congr 1
    · split <;> rfl
    · split <;> rfl

theorem parentOf?_renamed (target : Node) (q : Span) (n : Node) :
    parentOf? (target.renamed ρ) (q.renamed ρ) (n.renamed ρ) = (parentOf? target q n).map (renamed ρ) := by
  induction n using children_induction with
  | step n ih =>
    have hany : (n.renamed ρ).span.any (!·.includes (q.renamed ρ)) = n.span.any (!·.includes q) := by
      cases h : n.span <;> simp [h]
    have hchild : (n.renamed ρ).children.any (·.same (target.renamed ρ)) = n.children.any (·.same target) := by
      simp [Function.comp_def]
    have hbelow : (n.renamed ρ).children.findSome? (parentOf? (target.renamed ρ) (q.renamed ρ)) =
        (n.children.findSome? (parentOf? target q)).map (renamed ρ) := by
      rw [children_renamed, List.findSome?_map]
      generalize n.children = l at ih
      induction l with
      | nil => rfl
      | cons c l ihl =>
        rw [List.findSome?_cons, List.findSome?_cons, Function.comp_apply, ih c (List.mem_cons_self ..),
          ihl fun d hd => ih d (List.mem_cons_of_mem _ hd)]
        cases parentOf? target q c <;> rfl
    rw [parentOf?_eq, parentOf?_eq, hany, hchild, hbelow]
    split
    · rfl
    · split <;> rfl

end Node

def Source.renamed (ρ : Equiv.Perm String) (s : Source) : Source := { s with name := ρ s.name }

def CompilationUnit.renamed (ρ : Equiv.Perm String) (c : CompilationUnit) : CompilationUnit :=
  { source := c.source.renamed ρ, root := c.root.renamed ρ }

def Units.renamed (ρ : Equiv.Perm String) (u : Units) : Units := { units := u.units.map (·.renamed ρ) }

namespace Units
variable (ρ : Equiv.Perm String) (u : Units)

theorem get?_renamed (file : String) : (u.renamed ρ).get? (ρ file) = (u.get? file).map (·.renamed ρ) := by
  rw [get?, get?, renamed, List.find?_map]
  congr 2
  funext c
  simp only [Function.comp_apply, CompilationUnit.renamed, Source.renamed]
  rw [Bool.eq_iff_iff, beq_iff_eq, beq_iff_eq]
  exact ρ.injective.eq_iff

theorem tree?_renamed (file : String) : (u.renamed ρ).tree? (ρ file) = (u.tree? file).map (Node.renamed ρ) := by
  rw [tree?, tree?, get?_renamed, Option.map_map, Option.map_map]
  rfl

theorem source?_renamed (file : String) : (u.renamed ρ).source? (ρ file) = (u.source? file).map (·.renamed ρ) := by
  rw [source?, source?, get?_renamed, Option.map_map, Option.map_map]
  rfl

/-- What is looked for in the tree that a node belongs to. -/
theorem bind_tree?_renamed {f g : Span → Node → Option Node}
    (h : ∀ q root, f (q.renamed ρ) (root.renamed ρ) = (g q root).map (Node.renamed ρ)) (n : Node) :
    ((n.renamed ρ).span.bind fun q => ((u.renamed ρ).tree? q.file).bind (f q)) =
      (n.span.bind fun q => (u.tree? q.file).bind (g q)).map (Node.renamed ρ) := by
  rw [Node.span_renamed]
  cases n.span with
  | none => rfl
  | some q =>
    rw [Option.map_some, Option.bind_some, Option.bind_some, Span.file_renamed, tree?_renamed]
    cases u.tree? q.file with
    | none => rfl
    | some root => exact h q root

@[simp] theorem counterpart?_renamed (n : Node) :
    (u.renamed ρ).counterpart? (n.renamed ρ) = (u.counterpart? n).map (Node.renamed ρ) := by
  refine bind_tree?_renamed ρ u (fun q root => ?_) n
  rw [Node.atRange_renamed, ← List.map_reverse, List.find?_map]
  congr 2
  funext m
  simp

@[simp] theorem parent?_renamed (n : Node) :
    (u.renamed ρ).parent? (n.renamed ρ) = (u.parent? n).map (Node.renamed ρ) :=
  bind_tree?_renamed ρ u (Node.parentOf?_renamed ρ n) n

end Units

/-! ### Regions -/

namespace Node
variable (ρ : Equiv.Perm String)

@[simp] theorem childrenChanged_renamed (n m : Node) :
    (n.renamed ρ).childrenChanged (m.renamed ρ) = n.childrenChanged m := by
  simp [childrenChanged, List.zip_map, Function.comp_def]

@[simp] theorem differing_renamed (n m : Node) : (n.renamed ρ).differing (m.renamed ρ) = n.differing m := by
  simp [differing, List.zip_map, List.zipIdx_map, List.filterMap_map]

theorem replaced?_renamed (n m : Node) : (n.renamed ρ).replaced? (m.renamed ρ) =
    (n.replaced? m).map fun x => (x.1, x.2.1.renamed ρ, x.2.2.renamed ρ) := by
  unfold replaced?
  rw [isSequence_renamed, children_renamed, children_renamed, List.length_map, List.length_map, differing_renamed]
  cases n.isSequence && n.children.length == m.children.length with
  | false => rfl
  | true =>
    cases n.differing m with
    | nil => rfl
    | cons i l =>
      cases l with
      | cons j l => rfl
      | nil =>
        simp only [List.getElem?_map]
        cases n.children[i]? with
        | none => rfl
        | some new =>
          obtain ⟨_, s, _⟩ := new
          cases m.children[i]? with
          | none => cases s <;> rfl
          | some old =>
            obtain ⟨_, t, _⟩ := old
            cases s <;> cases t <;> rfl

theorem changedNodes_renamed (u : Units) (n : Node) :
    (n.renamed ρ).changedNodes (u.renamed ρ) = (n.changedNodes u).map (renamed ρ) := by
  induction n using children_induction with
  | step n ih =>
    have hbelow : (n.renamed ρ).children.flatMap (changedNodes (u.renamed ρ)) =
        (n.children.flatMap (changedNodes u)).map (renamed ρ) := by
      rw [children_renamed, List.flatMap_map, List.map_flatMap]
      exact List.flatMap_congr ih
    rw [changedNodes, changedNodes, flatMap_attach _ (changedNodes (u.renamed ρ)),
      flatMap_attach _ (changedNodes u), hbelow,
      Units.counterpart?_renamed]
    cases u.counterpart? n with
    | none => rfl
    | some base =>
      simp only [Option.map_some, same_renamed, contentDiffers_renamed, childrenChanged_renamed]
      split
      · rfl
      · split <;> rfl

end Node

namespace NodeSet
variable (ρ : Equiv.Perm String)

def renamed (s : NodeSet) : NodeSet := { nodes := s.nodes.map (Node.renamed ρ) }

@[simp] theorem contains_renamed (s : NodeSet) (n : Node) : (s.renamed ρ).contains (n.renamed ρ) = s.contains n := by
  simp [contains, renamed, Function.comp_def]

theorem insert_renamed (s : NodeSet) (n : Node) : (s.renamed ρ).insert (n.renamed ρ) = (s.insert n).renamed ρ := by
  unfold insert
  rw [contains_renamed]
  split
  · rfl
  · simp [renamed]

theorem ofList_renamed (l : List Node) : ofList (l.map (Node.renamed ρ)) = (ofList l).renamed ρ := by
  have hfold : ∀ s : NodeSet, (l.map (Node.renamed ρ)).foldl insert (s.renamed ρ) = (l.foldl insert s).renamed ρ := by
    induction l with
    | nil => exact fun s => rfl
    | cons n l ih => exact fun s => by rw [List.map_cons, List.foldl_cons, insert_renamed, ih, List.foldl_cons]
  exact hfold {}

end NodeSet

namespace Region
variable (ρ : Equiv.Perm String)

def renamed (r : Region) : Region :=
  { top := r.top.renamed ρ, range := r.range.renamed ρ, changed := r.changed.renamed ρ }

theorem of_renamed (u : Units) (n : Node) (s : Span) :
    of (u.renamed ρ) (n.renamed ρ) (s.renamed ρ) = (of u n s).renamed ρ := by
  rw [of, of, Node.changedNodes_renamed, NodeSet.ofList_renamed]
  rfl

theorem search_renamed (u : Units) (n : Node) : search (u.renamed ρ) (n.renamed ρ) = (search u n).map (renamed ρ) := by
  induction n using Node.children_induction with
  | step n ih =>
    have hbelow : ∀ l : List Node, (∀ c ∈ l, c ∈ n.children) → (l.map (Node.renamed ρ)).flatMap (search (u.renamed ρ)) =
        (l.flatMap (search u)).map (renamed ρ) := by
      intro l hl
      rw [List.flatMap_map, List.map_flatMap]
      exact List.flatMap_congr fun c hc => ih c (hl c hc)
    rw [search_eq, search_eq, Units.counterpart?_renamed]
    cases u.counterpart? n with
    | none => rfl
    | some base =>
      simp only [Option.map_some, Node.same_renamed, Node.span_renamed]
      split
      · rfl
      · cases base.span with
        | none => rfl
        | some range =>
          simp only [Option.map_some, Node.contentDiffers_renamed, Node.childrenChanged_renamed, Node.replaced?_renamed,
            Node.children_renamed]
          split
          · rw [of_renamed, hbelow n.children fun c hc => hc]
            rfl
          · split
            · cases n.replaced? base with
              | none => exact congrArg (List.cons · []) (of_renamed ρ u n range)
              | some x =>
                simp only [Option.map_some, of_renamed, List.map_cons]
                rw [List.eraseIdx_map, hbelow _ fun c hc => List.mem_of_mem_eraseIdx hc]
            · exact hbelow n.children fun c hc => hc

theorem widest_renamed (l : List Region) : widest range (l.map (renamed ρ)) = (widest range l).map (renamed ρ) := by
  refine widest_map (fun a => ?_) (fun a b => ?_) (fun a b => ?_) l
  · exact a.range.start_renamed ρ
  · exact Span.includes_renamed ρ a.range b.range
  · exact Span.properlyIncludes_renamed ρ a.range b.range

theorem find_renamed (u : Units) (n : Node) : find (u.renamed ρ) (n.renamed ρ) = (find u n).map (renamed ρ) := by
  rw [find, find, search_renamed, widest_renamed]

end Region

end Reprint
