import Mathlib
import Reprint.Proofs.Brackets
import Reprint.Proofs.Renaming
import Reprint.Proofs.Runs
/-!
Printing and the names of files. What is printed for a tree, new or from the text it came from, is the same after its
files have been renamed, together with the texts; a fault is the same but for the name in it. Main statement: the edits
and diagnostics of a regeneration do not depend on names (`regenerate_renamed`).
-/

namespace Reprint

variable (ρ : Equiv.Perm String)

/-! ### Printing from scratch -/

@[simp] theorem Name.text_renamed (name : Name) : (name.renamed ρ).text = name.text := rfl

@[simp] theorem ModifierToken.flag_renamed (m : ModifierToken) : (m.renamed ρ).flag = m.flag := rfl

namespace Doc

@[simp] theorem keywords_renamed (mods : List ModifierToken) : keywords (mods.map (·.renamed ρ)) = keywords mods := by
  simp [keywords, List.flatMap_map]

@[simp] theorem typeParams_renamed (tparams : List Node) :
    typeParams (tparams.map (Node.renamed ρ)) = typeParams tparams := by
  simp [typeParams, Function.comp_def]

end Doc

namespace Node

theorem filter_renamed {f : Node → Bool} (hf : ∀ m, f (renamed ρ m) = f m) (l : List Node) :
    (l.map (renamed ρ)).filter f = (l.filter f).map (renamed ρ) := by
  rw [List.filter_map, show f ∘ renamed ρ = f from funext hf]

section Doc
variable {ρ}

/-- The code of a node stays the same when its files are renamed, whatever its role. -/
def KeepsDoc (ρ : Equiv.Perm String) (n : Node) : Prop := ∀ role, (n.renamed ρ).doc role = n.doc role

theorem KeepsDoc.mapM {l : List Node} (h : ∀ c ∈ l, c.KeepsDoc ρ) (role : Role) :
    (l.map (renamed ρ)).mapM (doc role) = l.mapM (doc role) := by
  rw [List.mapM_map]
  exact mapM_congr fun c hc => h c hc role

theorem KeepsDoc.mapM_mapM {ls : List (List Node)} (h : ∀ l ∈ ls, ∀ c ∈ l, c.KeepsDoc ρ) (role : Role) :
    (ls.map (·.map (renamed ρ))).mapM (·.mapM (doc role)) = ls.mapM (·.mapM (doc role)) := by
  rw [List.mapM_map]
  exact mapM_congr fun l hl => KeepsDoc.mapM (h l hl) role

theorem KeepsDoc.option_mapM {o : Option Node} (h : ∀ c, o = some c → c.KeepsDoc ρ) (role : Role) :
    (o.map (renamed ρ)).mapM (doc role) = o.mapM (doc role) := by
  cases o with
  | none => rfl
  | some c => exact congrArg (Functor.map some) (h c rfl role)

end Doc

/-- The code of a node says nothing of files. -/
theorem keepsDoc (n : Node) : n.KeepsDoc ρ := by
  induction n using slots_induction with
  | step n ih =>
    intro role
    obtain ⟨i, s, k⟩ := n
    have hnode : ∀ {c : Node} {role : Role}, c ∈ k.slots → (c.renamed ρ).doc role = c.doc role := fun hc => ih _ hc _
    have hlist : ∀ {l : List Node} {role : Role}, (∀ c ∈ l, c ∈ k.slots) →
        (l.map (renamed ρ)).mapM (doc role) = l.mapM (doc role) := fun hl =>
      KeepsDoc.mapM (fun c hc => ih c (hl c hc)) _
    have hlists : ∀ {ls : List (List Node)} {role : Role}, (∀ l ∈ ls, ∀ c ∈ l, c ∈ k.slots) →
        (ls.map (·.map (renamed ρ))).mapM (·.mapM (doc role)) = ls.mapM (·.mapM (doc role)) := fun hls =>
      KeepsDoc.mapM_mapM (fun l hl c hc => ih c (hls l hl c hc)) _
    have hoption : ∀ {o : Option Node} {role : Role}, (∀ c, o = some c → c ∈ k.slots) →
        (o.map (renamed ρ)).mapM (doc role) = o.mapM (doc role) := fun ho =>
      KeepsDoc.option_mapM (fun c hc => ih c (ho c hc)) _
    clear ih
    rw [doc.eq_def, doc.eq_def (n := mk i s k)]
    simp only [List.mapM_subtype, List.unattach_attach, option_mapM_attach]
    cases k
    all_goals simp only [renamed, Kind.renamed, renamedAll_eq, renamedIn_eq, renamedLists_eq]
    case package => rw [hnode (by simp [Kind.slots]), hlist (by simp +contextual [Kind.slots])]
    case classDef | objectDef | select | bind =>
      rw [hnode (by simp [Kind.slots])]
      simp
    case template parents superArgs self body =>
      rw [filter_renamed ρ (isParameter_renamed ρ), filter_renamed ρ fun m => congrArg not (isParameter_renamed ρ m),
        hlist (l := body.filter _) (by simp +contextual [Kind.slots]),
        hlist (l := parents) (by simp +contextual [Kind.slots]),
        hlist (l := superArgs) (by simp +contextual [Kind.slots]), hoption (by simp +contextual [Kind.slots]),
        hlist (l := body.filter _) (by simp +contextual [Kind.slots]), List.isEmpty_map]
    case valDef =>
      rw [hoption (by simp +contextual [Kind.slots]), hoption (by simp +contextual [Kind.slots])]
      simp [Function.comp_def]
    case methodDef =>
      rw [hoption (by simp +contextual [Kind.slots]), hoption (by simp +contextual [Kind.slots])]
      simp only [Doc.keywords_renamed, Doc.typeParams_renamed, Name.text_renamed]
      rw [hlists fun l hl c hc => by simpa [Kind.slots] using .inr (.inl ⟨l, hl, hc⟩)]
    case typeDef | selfType =>
      rw [hoption (by simp +contextual [Kind.slots])]
      simp
    case thisRef qual => cases qual <;> rfl
    case apply | superCall | matchExpr => rw [hnode (by simp [Kind.slots]), hlist (by simp +contextual [Kind.slots])]
    case newExpr => rw [hnode (by simp [Kind.slots])]
    case typed => rw [hnode (by simp [Kind.slots]), hnode (by simp [Kind.slots])]
    case caseClause =>
      rw [hnode (by simp [Kind.slots]), hoption (by simp +contextual [Kind.slots]), hnode (by simp [Kind.slots])]
    case ifExpr =>
      rw [hnode (by simp [Kind.slots]), hnode (by simp [Kind.slots]), hoption (by simp +contextual [Kind.slots])]
    case lambda params body =>
      rw [hnode (by simp [Kind.slots]), hlist (by simp +contextual [Kind.slots])]
      congr 1
      funext docs
      congr 1
      funext body
      rcases params with _ | ⟨⟨i, s, k⟩, l⟩
      · rfl
      · cases k
        case valDef tpt _ => cases tpt <;> cases l <;> rfl
        all_goals rfl
    case importDecl expr selectors =>
      rw [hnode (by simp [Kind.slots]), hlist (by simp +contextual [Kind.slots])]
      congr 1
      funext expr
      congr 1
      funext docs
      rcases selectors with _ | ⟨⟨i, s, k⟩, l⟩
      · rfl
      · cases k
        case importSelector _ rename => cases rename <;> cases l <;> rfl
        all_goals rfl
    case importSelector _ rename => cases rename <;> rfl
    case block => rw [hlist (by simp +contextual [Kind.slots])]

@[simp] theorem pretty_renamed (style : Style) (n : Node) : (n.renamed ρ).pretty style = n.pretty style := by
  rw [pretty, pretty, keepsDoc ρ n]

end Node

/-! ### Separators -/

namespace Separator
open Node

@[simp] theorem isIn_renamed (l : List Node) (n : Node) : isIn (l.map (renamed ρ)) (n.renamed ρ) = isIn l n := by
  simp [isIn, Function.comp_def]

@[simp] theorem fills_renamed (slot : Option Node) (n : Node) :
    fills (slot.map (renamed ρ)) (n.renamed ρ) = fills slot n := by
  cases slot <;> simp [fills]

@[simp] theorem isParent_renamed (l : List Node) (n : Node) :
    isParent (l.map (renamed ρ)) (n.renamed ρ) = isParent l n := by
  simp [isParent]

theorem between_renamed (parent left right : Node) :
    between (parent.renamed ρ) (left.renamed ρ) (right.renamed ρ) = between parent left right := by
  obtain ⟨_, _, k⟩ := parent
  cases k <;> simp [between, kind, ← List.map_flatten, Function.comp_def]

theorem opening?_renamed (parent first : Node) :
    opening? (parent.renamed ρ) (first.renamed ρ) = opening? parent first := by
  obtain ⟨_, _, k⟩ := parent
  cases k <;> simp [opening?, kind]

end Separator

/-! ### Layout -/

namespace Gap

def Junction.renamed (j : Junction) : Junction :=
  { parent := j.parent.renamed ρ, left := j.left.renamed ρ, right := j.right.renamed ρ }

namespace Junction
variable (j : Junction)

@[simp] theorem opensCases_renamed : (j.renamed ρ).opensCases = j.opensCases := by
  obtain ⟨⟨_, _, k⟩, l, r⟩ := j
  cases k <;> simp [opensCases, renamed, Node.kind]

@[simp] theorem endsParameters_renamed : (j.renamed ρ).endsParameters = j.endsParameters := by
  obtain ⟨⟨_, _, k⟩, l, r⟩ := j
  have hfills := Separator.fills_renamed ρ
  simp only [Separator.fills] at hfills
  cases k <;> simp [endsParameters, renamed, Node.kind, ← List.map_flatten, hfills]

@[simp] theorem index?_renamed (code : Text) : (j.renamed ρ).index? code = j.index? code := by
  have hleft : (j.renamed ρ).left = j.left.renamed ρ := rfl
  have hright : (j.renamed ρ).right = j.right.renamed ρ := rfl
  simp [index?, hleft, hright]

end Junction

theorem splitBetween_renamed (t : Text) (parent left right : Node) :
    splitBetween t { parent := parent.renamed ρ, left := left.renamed ρ, right := right.renamed ρ } =
      splitBetween t { parent, left, right } := by
  show splitBetween t (Junction.renamed ρ { parent, left, right }) = _
  simp [splitBetween, indexBetween]

@[simp] theorem splitLeading_renamed (parent : Node) (t : Text) :
    splitLeading (parent.renamed ρ) t = splitLeading parent t := by
  simp [splitLeading, indexLeading]

end Gap

/-- A fault with the names of files exchanged. -/
def RegenError.renamed : RegenError → RegenError
  | noCounterpart => noCounterpart
  | missingSource file => missingSource (ρ file)
  | outOfBounds range => outOfBounds range

theorem mapError_bind {ε ε' α β : Type} (g : ε → ε') (x : Except ε α) (f : α → Except ε β) :
    (x >>= f).mapError g = x.mapError g >>= fun a => (f a).mapError g := by
  cases x <;> rfl

theorem mapError_pure {ε ε' α : Type} (g : ε → ε') (a : α) : (pure a : Except ε α).mapError g = pure a := rfl

namespace Layout
open Node

theorem gap_renamed (source : Source) (start stop : Nat) :
    gap (source.renamed ρ) start stop = (gap source start stop).mapError (RegenError.renamed ρ) := by
  have hgap : (source.renamed ρ).gap start stop = source.gap start stop := rfl
  rw [gap, gap, hgap]
  cases source.gap start stop <;> rfl

@[simp] theorem anchors_renamed (parent : Node) : anchors (parent.renamed ρ) = (anchors parent).map (renamed ρ) := by
  simp [anchors, List.filter_map, Function.comp_def]

variable (source : Source) (parent n : Node) (bounds s : Span)

theorem leadingOf_renamed (left : Option Node) :
    leadingOf (source.renamed ρ) (parent.renamed ρ) (bounds.renamed ρ) (left.map (renamed ρ)) (n.renamed ρ)
        (s.renamed ρ) = (leadingOf source parent bounds left n s).mapError (RegenError.renamed ρ) := by
  cases left with
  | none =>
    simp only [leadingOf, Option.map_none, Gap.splitLeading_renamed, gap_renamed, mapError_bind]
    rfl
  | some l =>
    simp only [leadingOf, Option.map_some, Gap.splitBetween_renamed, span_renamed, Option.map_map, gap_renamed,
      mapError_bind]
    rfl

theorem trailingOf_renamed (right : Option Node) :
    trailingOf (source.renamed ρ) (parent.renamed ρ) (bounds.renamed ρ) (right.map (renamed ρ)) (n.renamed ρ)
        (s.renamed ρ) = (trailingOf source parent bounds right n s).mapError (RegenError.renamed ρ) := by
  cases right with
  | none =>
    simp only [trailingOf, Option.map_none, gap_renamed, mapError_bind]
    rfl
  | some r =>
    simp only [trailingOf, Option.map_some, Gap.splitBetween_renamed, span_renamed, Option.map_map, gap_renamed,
      mapError_bind]
    rfl

theorem within_renamed :
    within (source.renamed ρ) (parent.renamed ρ) (bounds.renamed ρ) (n.renamed ρ) (s.renamed ρ) =
      (within source parent bounds n s).mapError (RegenError.renamed ρ) := by
  simp only [within, anchors_renamed, List.findIdx?_map, Function.comp_def, same_renamed, List.getElem?_map]
  split
  · rfl
  · next i _ =>
    have hleft : (if i = 0 then none else Option.map (renamed ρ) (anchors parent)[i - 1]?) =
        (if i = 0 then none else (anchors parent)[i - 1]?).map (renamed ρ) := by split <;> rfl
    rw [hleft, leadingOf_renamed, trailingOf_renamed]
    simp only [mapError_bind, mapError_pure]

/-- Around a renamed node stands the same text. -/
theorem around_renamed (u : Units) (n : Node) :
    around (u.renamed ρ) (n.renamed ρ) = (around u n).mapError (RegenError.renamed ρ) := by
  simp only [around, layoutSpan_renamed]
  cases n.layoutSpan with
  | none => rfl
  | some s =>
    simp only [Option.map_some, Span.file_renamed, Units.source?_renamed, Units.parent?_renamed]
    cases u.source? s.file with
    | none => rfl
    | some source =>
      have hwhole : ∀ a b c d, (do
            let leading ← gap (source.renamed ρ) a b
            let trailing ← gap (source.renamed ρ) c d
            return ({ leading, trailing } : Layout)) = (do
            let leading ← gap source a b
            let trailing ← gap source c d
            return ({ leading, trailing } : Layout)).mapError (RegenError.renamed ρ) := by
        intro a b c d
        simp only [gap_renamed, mapError_bind, mapError_pure]
      rcases u.parent? n with _ | parent
      · exact hwhole ..
      · simp only [Option.map_some, Option.bind_some, layoutSpan_renamed, Option.map_map]
        rcases parent.layoutSpan with _ | bounds
        · exact hwhole ..
        · exact within_renamed ..

theorem affixes?_renamed : affixes? (source.renamed ρ) (parent.renamed ρ) =
    (affixes? source parent).mapError (RegenError.renamed ρ) := by
  have hspans : (parent.renamed ρ).children.filterMap (·.layoutSpan) =
      (parent.children.filterMap (·.layoutSpan)).map (Span.renamed ρ) := by
    simp [List.filterMap_map, List.map_filterMap]
  rw [affixes?, affixes?, hspans]
  generalize parent.children.filterMap (·.layoutSpan) = spans
  simp only [layoutSpan_renamed, List.head?_map, List.getLast?_map]
  rcases parent.layoutSpan with _ | bounds
  · rfl
  · rcases spans.head? with _ | first
    · rfl
    · rcases spans.getLast? with _ | last
      · rfl
      · simp only [Option.map_some, gap_renamed, Gap.splitLeading_renamed, mapError_bind, mapError_pure]
        rfl

end Layout

/-! ### Steps with renamed faults -/

/-- From the same diagnostics, the second step gives what `k` makes of the result of the first one and leaves the same
diagnostics, or both fail, the second one with the renamed fault. -/
def Follows {α β : Type} (k : α → β) (m : PrintM α) (m' : PrintM β) : Prop :=
  ∀ ds, (∃ a ds', Yields m ds a ds' ∧ Yields m' ds (k a) ds') ∨ ∃ e, Fails m ds e ∧ Fails m' ds (e.renamed ρ)

namespace Follows
variable {ρ} {α β γ δ ι κ : Type} {k : α → β} {l : γ → δ}

theorem pure {a : α} {b : β} (h : b = k a) : Follows ρ k (Pure.pure a) (Pure.pure b) := fun ds =>
  .inl ⟨a, ds, Yields.pure_iff.mpr ⟨rfl, rfl⟩, Yields.pure_iff.mpr ⟨h, rfl⟩⟩

theorem bind {m : PrintM α} {m' : PrintM β} {f : α → PrintM γ} {g : β → PrintM δ} (hm : Follows ρ k m m')
    (hf : ∀ a, Follows ρ l (f a) (g (k a))) : Follows ρ l (m >>= f) (m' >>= g) := by
  intro ds
  obtain ⟨a, ds₁, ha, hb⟩ | ⟨e, he, he'⟩ := hm ds
  · obtain ⟨c, ds₂, hc, hd⟩ | ⟨e, he, he'⟩ := hf a ds₁
    · exact .inl ⟨c, ds₂, Yields.bind_iff.mpr ⟨a, ds₁, ha, hc⟩, Yields.bind_iff.mpr ⟨k a, ds₁, hb, hd⟩⟩
    · exact .inr ⟨e, .bind_right ha he, .bind_right hb he'⟩
  · exact .inr ⟨e, he.bind_left, he'.bind_left⟩

theorem lift_map {x : Except RegenError α} {y : Except RegenError β}
    (h : y = (x.map k).mapError (RegenError.renamed ρ)) : Follows ρ k (liftM x) (liftM y) := by
  intro ds
  subst h
  cases x with
  | ok a => exact .inl ⟨a, ds, Yields.lift_iff.mpr ⟨rfl, rfl⟩, Yields.lift_iff.mpr ⟨rfl, rfl⟩⟩
  | error e => exact .inr ⟨e, .lift rfl, .lift rfl⟩

theorem lift {x y : Except RegenError α} (h : y = x.mapError (RegenError.renamed ρ)) :
    Follows ρ id (liftM x) (liftM y) :=
  lift_map (by rw [h]; cases x <;> rfl)

theorem mapM {f : ι → PrintM α} {g : κ → PrintM β} {h : ι → κ} {l : List ι}
    (hl : ∀ c ∈ l, Follows ρ k (f c) (g (h c))) :
    Follows ρ (List.map k) (l.mapM f) ((l.map h).mapM g) := by
  induction l with
  | nil => exact pure rfl
  | cons c l ih =>
    rw [List.map_cons, List.mapM_cons, List.mapM_cons]
    exact bind (hl c (List.mem_cons_self ..)) fun a => bind (ih fun d hd => hl d (List.mem_cons_of_mem _ hd))
      fun as => pure rfl

end Follows

/-! ### Printing from the text -/

theorem all_congr_mem {α : Type} {f g : α → Bool} {l : List α} (h : ∀ a ∈ l, f a = g a) : l.all f = l.all g := by
  rw [Bool.eq_iff_iff, List.all_eq_true, List.all_eq_true]
  exact forall₂_congr fun a ha => by rw [h a ha]

namespace Node

theorem isPristine_renamed (changed : NodeSet) (n base : Node) :
    (n.renamed ρ).isPristine (changed.renamed ρ) (base.renamed ρ) = n.isPristine changed base := by
  induction n using children_induction generalizing base with
  | step n ih =>
    have hall : (((n.children.map (renamed ρ)).zip (base.children.map (renamed ρ))).all fun x =>
          x.1.sameSlot x.2 && x.1.isPristine (changed.renamed ρ) x.2) =
        (n.children.zip base.children).all fun x => x.1.sameSlot x.2 && x.1.isPristine changed x.2 := by
      rw [List.zip_map, List.all_map]
      refine all_congr_mem fun x hx => ?_
      simp [ih x.1 (List.of_mem_zip hx).1]
    rw [isPristine_eq, isPristine_eq, children_renamed, children_renamed, hall]
    simp [sameShape]

end Node

namespace Printer
open Node

/-- A printer for renamed files. The fallback printer is kept. -/
def renamed (p : Printer) : Printer := { p with units := p.units.renamed ρ }

/-- The fallback printer does not look at the names of files. -/
def Nameless (p : Printer) : Prop := ∀ n, p.fallback (n.renamed ρ) = p.fallback n

variable {ρ} {p : Printer}

theorem units_renamed : (p.renamed ρ).units = p.units.renamed ρ := rfl

theorem leafText?_renamed (n : Node) : leafText? (n.renamed ρ) = leafText? n := by
  obtain ⟨_, _, k⟩ := n
  cases k
  case thisRef qual => cases qual <;> rfl
  all_goals rfl

theorem follows_printNew (hp : p.Nameless ρ) (n : Node) :
    Follows ρ id (p.printNew n) ((p.renamed ρ).printNew (n.renamed ρ)) := by
  have hsame : (p.renamed ρ).printNew (n.renamed ρ) = p.printNew n := by
    rw [printNew, printNew, show (p.renamed ρ).fallback (n.renamed ρ) = p.fallback n from hp n]
    simp only [placeholder, tag_renamed]
  intro ds
  obtain ⟨t, ds', h⟩ := completes_printNew p n ds
  exact .inl ⟨t, ds', h, hsame ▸ h⟩

theorem follows_printLeaf (hp : p.Nameless ρ) (n : Node) :
    Follows ρ id (p.printLeaf n) ((p.renamed ρ).printLeaf (n.renamed ρ)) := by
  rw [printLeaf, printLeaf, leafText?_renamed]
  cases leafText? n with
  | none => exact follows_printNew hp n
  | some t => exact .pure rfl

theorem sourceOf_renamed (s : Span) : (p.renamed ρ).sourceOf (s.renamed ρ) =
    ((p.sourceOf s).map (Source.renamed ρ)).mapError (RegenError.renamed ρ) := by
  rw [sourceOf, sourceOf, units_renamed, Span.file_renamed, Units.source?_renamed]
  cases p.units.source? s.file <;> rfl

theorem sliceOf_renamed (s : Span) : (p.renamed ρ).sliceOf (s.renamed ρ) =
    (p.sliceOf s).mapError (RegenError.renamed ρ) := by
  rw [sliceOf, sliceOf, sourceOf_renamed]
  rcases p.sourceOf s with _ | source
  · rfl
  · have hslice : (source.renamed ρ).slice (s.renamed ρ).start (s.renamed ρ).stop = source.slice s.start s.stop := rfl
    simp only [Except.map, Except.mapError, bind, Except.bind, hslice]
    cases source.slice s.start s.stop <;> rfl

theorem indentationOf_renamed (s : Span) : (p.renamed ρ).indentationOf (s.renamed ρ) =
    (p.indentationOf s).mapError (RegenError.renamed ρ) := by
  rw [indentationOf, indentationOf, sourceOf_renamed]
  rcases p.sourceOf s with _ | source <;> rfl

theorem childIndent_renamed (source : Source) (base : Node) (indent : Text) :
    (p.renamed ρ).childIndent (source.renamed ρ) (base.renamed ρ) indent = p.childIndent source base indent := by
  have hfirst : (base.renamed ρ).children.findSome? (·.layoutSpan) =
      (base.children.findSome? (·.layoutSpan)).map (Span.renamed ρ) := by
    simp [List.findSome?_map, List.map_findSome?, Function.comp_def]
  rw [childIndent, childIndent, hfirst]
  cases base.children.findSome? (·.layoutSpan) <;> rfl

theorem addChild_renamed (parent child : Node) (indent lineBreak out : Text) (previous : Option Node) (f : Fragment) :
    addChild (parent.renamed ρ) indent lineBreak (previous.map (Node.renamed ρ)) out (child.renamed ρ) f =
      addChild parent indent lineBreak previous out child f := by
  have hexpected : expected? (parent.renamed ρ) (previous.map (Node.renamed ρ)) (child.renamed ρ) f.fresh =
      expected? parent previous child f.fresh := by
    cases previous <;> simp [expected?, Separator.between_renamed, Separator.opening?_renamed]
  rw [addChild, addChild, hexpected]

theorem addChildren_renamed (parent : Node) (indent lineBreak out : Text) (previous : Option Node)
    (l : List (Node × Fragment)) :
    addChildren (parent.renamed ρ) indent lineBreak (previous.map (Node.renamed ρ)) out
      (l.map fun x => (x.1.renamed ρ, x.2)) = addChildren parent indent lineBreak previous out l := by
  induction l generalizing previous out with
  | nil => rfl
  | cons x l ih =>
    simp only [List.map_cons, addChildren, addChild_renamed]
    exact ih _ (some x.1)

theorem relocate_renamed (f : Fragment) (base : Node) (context : Option Node) :
    (p.renamed ρ).relocate f (base.renamed ρ) (context.map (Node.renamed ρ)) =
      (p.relocate f base context).mapError (RegenError.renamed ρ) := by
  unfold relocate
  rw [units_renamed, Units.parent?_renamed]
  rcases context with _ | context
  · rfl
  · rcases p.units.parent? base with _ | parent
    · rfl
    · simp only [Option.map_some, same_renamed, span_renamed]
      split
      · rfl
      · rcases parent.span with _ | old
        · rfl
        · rcases context.span with _ | new
          · rfl
          · simp only [Option.map_some, indentationOf_renamed, mapError_bind, mapError_pure]

/-- A renamed node is printed like the node. -/
theorem follows_printIn (hp : p.Nameless ρ) (changed : NodeSet) (context : Option Node) (n : Node) :
    Follows ρ id (p.printIn changed context n)
      ((p.renamed ρ).printIn (changed.renamed ρ) (context.map (Node.renamed ρ)) (n.renamed ρ)) := by
  induction n using children_induction generalizing context with
  | step n ih =>
    have hnew : Follows ρ id (do return { center := ← p.printNew n, fresh := true } : PrintM Fragment)
        (do return { center := ← (p.renamed ρ).printNew (n.renamed ρ), fresh := true }) :=
      .bind (follows_printNew hp n) fun _ => .pure rfl
    rw [printIn, printIn, units_renamed, Units.counterpart?_renamed]
    rcases p.units.counterpart? n with _ | base
    · exact hnew
    · simp only [Option.map_some, span_renamed]
      rcases base.span with _ | span
      · exact hnew
      · simp only [Option.map_some, isPristine_renamed, children_renamed, List.isEmpty_map]
        refine .bind (.lift (Layout.around_renamed ρ ..)) fun layout => ?_
        have hlast : ∀ a : Text, Follows ρ id
            (liftM (p.relocate ⟨layout.leading, a, layout.trailing, false⟩ base context))
            (liftM ((p.renamed ρ).relocate ⟨layout.leading, a, layout.trailing, false⟩ (base.renamed ρ)
              (context.map (Node.renamed ρ)))) := fun a => .lift (relocate_renamed ..)
        split
        · exact .bind (.lift (sliceOf_renamed span)) hlast
        · split
          · exact .bind (follows_printLeaf hp n) hlast
          · rw [mapM_attach n.children fun c => do return (c, ← p.printIn changed (some base) c),
              mapM_attach (n.renamed ρ).children fun c => do
                return (c, ← (p.renamed ρ).printIn (changed.renamed ρ) (some (base.renamed ρ)) c), children_renamed]
            refine .bind (.lift_map (sourceOf_renamed span)) fun source => ?_
            refine .bind (.lift (Layout.affixes?_renamed ρ source base)) fun o => ?_
            rcases o with _ | affixes
            · exact .bind (follows_printNew hp n) hlast
            · refine .bind (.mapM (k := fun x => (x.1.renamed ρ, x.2)) fun c hc => ?_) fun l =>
                .bind (k := id) (.pure ?_) hlast
              · exact .bind (ih c hc (some base)) fun _ => .pure rfl
              · rw [childIndent_renamed]
                exact congrArg (· ++ _) (addChildren_renamed n _ _ _ none l)

/-- What goes to a region is the same text after renaming. -/
theorem follows_printRegion (hp : p.Nameless ρ) (r : Region) :
    Follows ρ id (p.printRegion r) ((p.renamed ρ).printRegion (r.renamed ρ)) := by
  refine .bind (follows_printIn hp r.changed none r.top) fun f => ?_
  dsimp only [id]
  split
  · exact .bind (.lift (indentationOf_renamed r.range)) fun t => .pure rfl
  · exact .pure rfl

theorem follows_editOf (hp : p.Nameless ρ) (r : Region) :
    Follows ρ id (p.editOf r) ((p.renamed ρ).editOf (r.renamed ρ)) := by
  have htop : (r.renamed ρ).top.tag = r.top.tag := tag_renamed ρ r.top
  exact .bind (follows_printRegion hp r) fun t => .pure (by rw [htop]; rfl)

/-- Renamed files get the same edits, with the same diagnostics. -/
theorem regenerate_renamed (hp : p.Nameless ρ) (root : Node) :
    (p.renamed ρ).regenerate (root.renamed ρ) = (p.regenerate root).mapError (RegenError.renamed ρ) := by
  have hall := Follows.mapM (l := Region.find p.units root) fun r _ => follows_editOf hp r
  rw [← Region.find_renamed, ← units_renamed, List.map_id_fun] at hall
  have hcounterpart : ((p.renamed ρ).units.counterpart? (root.renamed ρ)).isSome =
      (p.units.counterpart? root).isSome := by
    rw [units_renamed, Units.counterpart?_renamed, Option.isSome_map]
  cases hcp : (p.units.counterpart? root).isSome with
  | false =>
    rw [regenerate, regenerate, ← Option.not_isSome, ← Option.not_isSome, hcounterpart, hcp]
    rfl
  | true =>
    rw [hcp] at hcounterpart
    obtain ⟨es, ds, h, h'⟩ | ⟨e, h, h'⟩ := hall []
    · have hok : p.regenerate root = .ok ⟨es, ds⟩ := regenerate_eq_ok_iff.mpr ⟨hcp, h⟩
      have hok' : (p.renamed ρ).regenerate (root.renamed ρ) = .ok ⟨es, ds⟩ :=
        regenerate_eq_ok_iff.mpr ⟨hcounterpart, h'⟩
      rw [hok, hok']
      rfl
    · rw [regenerate_of_fails hcp h, regenerate_of_fails hcounterpart h']
      rfl

end Printer

end Reprint
