import Mathlib
import Reprint.Process
import Reprint.Proofs.RenamedPrint
/-!
Loading and the names of files. A document does not say which file it belongs to: the name comes from the source it is
read against, so reading it against a renamed source gives the renamed tree. Together with printing this makes the whole
work on one file independent of what the file is called. Main statements: the texts of a job ask for the same edits
whatever the name of the source (`regeneration?_congr`), and faults apart, they decide the answer (`run_toOption`).
-/

namespace Reprint

variable (ρ : Equiv.Perm String)

namespace LoadedTree

def renamed (t : LoadedTree) : LoadedTree :=
  { t with root := t.root.renamed ρ, ids := t.ids.map fun x => (x.1, x.2.renamed ρ) }

end LoadedTree

namespace Document
open Node

def Context.renamed (c : Context) : Context :=
  { source := c.source.renamed ρ, shared := c.shared.map fun x => (x.1, x.2.renamed ρ) }

def Progress.renamed (p : Progress) : Progress := { p with ids := p.ids.map fun x => (x.1, x.2.renamed ρ) }

theorem Fields.nodes_map {α β : Type} (f : Fields α) (g : α → β) : (f.map g).nodes = f.nodes.map g := by
  simp [Fields.nodes, Fields.groups, Fields.map, List.map_flatten, Option.toList_map]

theorem lookup_renamed (ids : List (String × Node)) (id : String) :
    (ids.map fun x => (x.1, x.2.renamed ρ)).lookup id = (ids.lookup id).map (Node.renamed ρ) := by
  induction ids with
  | nil => rfl
  | cons x ids ih =>
    obtain ⟨key, node⟩ := x
    simp only [List.map_cons, List.lookup_cons, ih]
    split <;> rfl

namespace Build

/-! ### Steps of building -/

/-- Against renamed names, `m'` gives what `g` makes of the result of `m`, or fails like `m`. -/
def Mirrors {α : Type} (g : α → α) (m m' : Build α) : Prop :=
  ∀ context p, m' (context.renamed ρ) (p.renamed ρ) = (m context p).map fun x => (g x.1, x.2.renamed ρ)

section Mirrors
variable {ρ} {α β : Type} {g : α → α} {h : β → β}

theorem Mirrors.pure {a b : α} (hb : b = g a) : Mirrors ρ g (Pure.pure a) (Pure.pure b) := by
  intro context p
  rw [hb]
  rfl

theorem Mirrors.fail {e : DocumentError} : Mirrors ρ g (Build.fail e) (Build.fail e) := fun _ _ => rfl

theorem Mirrors.bind {m m' : Build α} {f f' : α → Build β} (hm : Mirrors ρ g m m')
    (hf : ∀ a, Mirrors ρ h (f a) (f' (g a))) : Mirrors ρ h (m >>= f) (m' >>= f') := by
  intro context p
  show (m' (context.renamed ρ) (p.renamed ρ) >>= fun x => f' x.1 (context.renamed ρ) x.2) =
    Except.map _ (m context p >>= fun x => f x.1 context x.2)
  rw [hm context p]
  cases m context p with
  | error e => rfl
  | ok x => exact hf x.1 context x.2

theorem Mirrors.read : Mirrors ρ (Context.renamed ρ) MonadReader.read MonadReader.read := fun _ _ => rfl

theorem Mirrors.get : Mirrors ρ (Progress.renamed ρ) MonadState.get MonadState.get := fun _ _ => rfl

theorem Mirrors.modify {f f' : Progress → Progress} (hf : ∀ p, f' (p.renamed ρ) = (f p).renamed ρ) :
    Mirrors ρ id (MonadStateOf.modifyGet fun p => ((), f p)) (MonadStateOf.modifyGet fun p => ((), f' p)) := by
  intro context p
  show (Except.ok ((), f' (p.renamed ρ)) : Except DocumentError (Unit × Progress)) = .ok ((), (f p).renamed ρ)
  rw [hf]

theorem Mirrors.mapM {γ : Type} {f f' : γ → Build α} {l : List γ} (hl : ∀ c ∈ l, Mirrors ρ g (f c) (f' c)) :
    Mirrors ρ (List.map g) (l.mapM f) (l.mapM f') := by
  induction l with
  | nil => exact .pure rfl
  | cons c l ih =>
    rw [List.mapM_cons, List.mapM_cons]
    exact .bind (hl c (List.mem_cons_self ..)) fun a => .bind (ih fun b hb => hl b (List.mem_cons_of_mem _ hb))
      fun as => .pure rfl

end Mirrors

/-! ### Fields -/

section Fields
variable {ρ}

theorem spanOf_renamed (source : Source) (offsets : List Nat) :
    spanOf (source.renamed ρ) offsets = (spanOf source offsets).map (Span.renamed ρ) := by
  unfold spanOf
  cases splitOffsets offsets with
  | error e => rfl
  | ok x =>
    obtain ⟨start, point, stop⟩ := x
    dsimp only [Bind.bind, Except.bind]
    rw [show (source.renamed ρ).size = source.size from rfl, show (source.renamed ρ).text = source.text from rfl]
    split
    · rfl
    · split
      · rfl
      · split <;> rfl

theorem mirrors_span (offsets : Option (List Nat)) :
    Mirrors ρ (Option.map (Span.renamed ρ)) (span offsets) (span offsets) := by
  cases offsets with
  | none => exact .pure rfl
  | some l =>
    refine .bind .read fun context => ?_
    rw [show (context.renamed ρ).source = context.source.renamed ρ from rfl, spanOf_renamed]
    cases spanOf context.source l with
    | error e => exact .fail
    | ok s => exact .pure rfl

theorem mirrors_name (f : NameField) : Mirrors ρ (Name.renamed ρ) (name f) (name f) :=
  .bind (mirrors_span f.offsets) fun _ => .pure rfl

theorem mirrors_requiredName (tag : Tag) (f : Option NameField) :
    Mirrors ρ (Name.renamed ρ) (requiredName tag f) (requiredName tag f) := by
  cases f with
  | none => exact .fail
  | some f => exact mirrors_name f

theorem mirrors_optionalName (f : Option NameField) :
    Mirrors ρ (Option.map (Name.renamed ρ)) (optionalName f) (optionalName f) := by
  cases f with
  | none => exact .pure rfl
  | some f => exact .bind (mirrors_name f) fun _ => .pure rfl

theorem mirrors_modifiers (mods : List ModifierField) :
    Mirrors ρ (List.map (ModifierToken.renamed ρ)) (modifiers mods) (modifiers mods) :=
  .mapM fun m _ => .bind (mirrors_span m.offsets) fun _ => .pure rfl

theorem mirrors_constant (value : Option Json) : Mirrors ρ id (constant value) (constant value) := by
  unfold constant
  split
  · exact .pure rfl
  · exact .fail

variable {tag : Tag} {field : String}

theorem mirrors_required {o : Option (Build Node)} (h : ∀ b, o = some b → Mirrors ρ (Node.renamed ρ) b b) :
    Mirrors ρ (Node.renamed ρ) (required tag field o) (required tag field o) := by
  cases o with
  | none => exact .fail
  | some b => exact h b rfl

theorem mirrors_optional {o : Option (Build Node)} (h : ∀ b, o = some b → Mirrors ρ (Node.renamed ρ) b b) :
    Mirrors ρ (Option.map (Node.renamed ρ)) (optional o) (optional o) := by
  cases o with
  | none => exact .pure rfl
  | some b => exact .bind (h b rfl) fun _ => .pure rfl

theorem mirrors_list {l : List (Build Node)} (h : ∀ b ∈ l, Mirrors ρ (Node.renamed ρ) b b) :
    Mirrors ρ (List.map (Node.renamed ρ)) (list l) (list l) := .mapM h

end Fields

/-! ### Nodes -/

/-- Against renamed names the same fields describe the renamed layer. -/
theorem mirrors_layer {tag : Tag} {f : Fields (Build Node)} (h : ∀ b ∈ f.nodes, Mirrors ρ (Node.renamed ρ) b b) :
    Mirrors ρ (Kind.renamed ρ) (layer tag f) (layer tag f) := by
  have hsingle : ∀ {o : Option (Build Node)}, o.toList ∈ f.groups → ∀ b, o = some b → Mirrors ρ (Node.renamed ρ) b b :=
    fun ho b hb => h b (Fields.some_mem_nodes _ ho b hb)
  have hmany : ∀ {l : List (Build Node)}, l ∈ f.groups → ∀ b ∈ l, Mirrors ρ (Node.renamed ρ) b b :=
    fun hl b hb => h b (Fields.mem_nodes _ hl b hb)
  have hlists : ∀ l ∈ f.vparamss, Mirrors ρ (List.map (Node.renamed ρ)) (list l) (list l) := fun l hl =>
    mirrors_list fun b hb => hmany (l := f.vparamss.flatten) (by simp [Fields.groups]) b (List.mem_flatten_of_mem hl hb)
  -- Every layer is a chain of fields of these few forms, whatever its tag.
  unfold layer
  cases tag
  all_goals repeat first
    | exact .fail
    | refine .bind (mirrors_modifiers _) fun _ => ?_
    | refine .bind (mirrors_requiredName _ _) fun _ => ?_
    | refine .bind (mirrors_optionalName _) fun _ => ?_
    | refine .bind (mirrors_constant _) fun _ => ?_
    | refine .bind (mirrors_required (hsingle (by simp [Fields.groups]))) fun _ => ?_
    | refine .bind (mirrors_optional (hsingle (by simp [Fields.groups]))) fun _ => ?_
    | refine .bind (mirrors_list (hmany (by simp [Fields.groups]))) fun _ => ?_
    | refine .bind (.mapM hlists) fun _ => ?_
  all_goals exact .pure (by simp)

theorem mirrors_fresh (place : Option Span) (kind : Kind Node) :
    Mirrors ρ (Node.renamed ρ) (fresh place kind) (fresh (place.map (Span.renamed ρ)) (kind.renamed ρ)) :=
  .bind .get fun _ => .bind (.modify fun _ => rfl) fun _ => .pure rfl

theorem mirrors_register (id : Option String) (node : Node) :
    Mirrors ρ (fun a => a) (register id node) (register id (node.renamed ρ)) := by
  cases id with
  | none => exact .pure rfl
  | some id =>
    refine .bind .get fun p => ?_
    rw [show (p.renamed ρ).ids = p.ids.map fun x => (x.1, x.2.renamed ρ) from rfl, lookup_renamed, Option.isSome_map]
    split
    · exact .fail
    · exact .modify fun _ => rfl

theorem mirrors_assemble {f : Fields (Build Node)} (h : ∀ b ∈ f.nodes, Mirrors ρ (Node.renamed ρ) b b) :
    Mirrors ρ (Node.renamed ρ) (assemble f) (assemble f) := by
  unfold assemble
  cases (Tag.ofName? f.kind).filter (!·.isDerived) with
  | none => exact .fail
  | some tag =>
    refine .bind (mirrors_span f.offsets) fun place => .bind (mirrors_layer ρ h) fun k => ?_
    have hplace :
        ((place.map (Span.renamed ρ)).map fun s => if f.transparent then { s with transparent := true } else s) =
          (place.map fun s => if f.transparent then { s with transparent := true } else s).map (Span.renamed ρ) := by
      rw [Option.map_map, Option.map_map]
      exact congrArg (place.map ·) (funext fun s => by simp only [Function.comp_apply]; split <;> rfl)
    rw [hplace]
    exact .bind (mirrors_fresh ρ _ k) fun n => .bind (mirrors_register ρ f.id n) fun _ => .pure rfl

theorem mirrors_resolve (target : String) : Mirrors ρ (Node.renamed ρ) (resolve target) (resolve target) := by
  refine .bind .read fun context => ?_
  rw [show (context.renamed ρ).shared = context.shared.map fun x => (x.1, x.2.renamed ρ) from rfl, lookup_renamed]
  cases context.shared.lookup target with
  | none => exact .fail
  | some n => exact .pure rfl

/-- Against renamed names a document describes the renamed tree. -/
theorem mirrors_node (d : NodeDoc) : Mirrors ρ (Node.renamed ρ) (node d) (node d) := by
  match d with
  | .ref target =>
    rw [node]
    exact mirrors_resolve ρ target
  | .node f =>
    rw [node_node]
    refine mirrors_assemble ρ fun b hb => ?_
    rw [Fields.nodes_map] at hb
    obtain ⟨d, hd, rfl⟩ := List.mem_map.mp hb
    exact mirrors_node d
termination_by sizeOf d
decreasing_by
  have := NodeDoc.sizeOf_lt_of_mem hd
  simp only [NodeDoc.node.sizeOf_spec]
  omega

end Build

theorem build_renamed (d : Document) (context : Context) (next : Nat) :
    d.build (context.renamed ρ) next = (d.build context next).map (LoadedTree.renamed ρ) := by
  have hrun : ∀ c, d.build c next = (Build.node d.root c { next } >>= fun x =>
    .ok { root := x.1, ids := x.2.ids, next := x.2.next }) := fun _ => rfl
  have hnode : Build.node d.root (context.renamed ρ) { next } = _ := Build.mirrors_node ρ d.root context { next }
  rw [hrun, hrun, hnode]
  cases Build.node d.root context { next } <;> rfl

end Document

namespace LoadedTree

theorem ofText_renamed (context : Document.Context) (next : Nat) (text : Text) :
    ofText (context.renamed ρ) next text = (ofText context next text).map (renamed ρ) := by
  unfold ofText
  cases Document.read? text with
  | none => rfl
  | some d => exact Document.build_renamed ρ d context next

theorem ofBase_renamed (source : Source) (text : Text) :
    ofBase (source.renamed ρ) text = (ofBase source text).map (renamed ρ) :=
  ofText_renamed ρ { source } 0 text

theorem ofEdited_renamed (source : Source) (text : Text) (base : LoadedTree) :
    ofEdited (source.renamed ρ) text (base.renamed ρ) = (ofEdited source text base).map (renamed ρ) :=
  ofText_renamed ρ { source, shared := base.ids } base.next text

end LoadedTree

/-! ### The work on one file -/

namespace Job

/-- The printer of a job. -/
def printer (style : RunStyle) (source : Source) (root : Node) : Printer :=
  { units := .single { source, root }
    fallback := fun n => n.pretty (style.styleFor source.text)
    style := style.styleFor source.text }

/-- What the texts of a job ask for, if the trees load and the change can be printed. -/
def regeneration? (style : RunStyle) (source : Source) (base edited : Text) : Option Regeneration := do
  let baseTree ← (LoadedTree.ofBase source base).toOption
  let editedTree ← (LoadedTree.ofEdited source edited baseTree).toOption
  ((printer style source baseTree.root).regenerate editedTree.root).toOption

theorem toOption_map {ε α β : Type} (f : α → β) (x : Except ε α) : (x.map f).toOption = x.toOption.map f := by
  cases x <;> rfl

theorem toOption_mapError {ε ε' α : Type} (f : ε → ε') (x : Except ε α) : (x.mapError f).toOption = x.toOption := by
  cases x <;> rfl

theorem printer_renamed (style : RunStyle) (source : Source) (root : Node) :
    printer style (source.renamed ρ) (root.renamed ρ) = (printer style source root).renamed ρ := rfl

theorem nameless_printer (style : RunStyle) (source : Source) (root : Node) :
    (printer style source root).Nameless ρ := fun n => Node.pretty_renamed ρ _ n

theorem regenerate_toOption (style : RunStyle) (source : Source) (root edited : Node) :
    ((printer style (source.renamed ρ) (root.renamed ρ)).regenerate (edited.renamed ρ)).toOption =
    ((printer style source root).regenerate edited).toOption := by
  rw [printer_renamed, Printer.regenerate_renamed (nameless_printer ρ style source root), toOption_mapError]

theorem root_renamed (t : LoadedTree) : (t.renamed ρ).root = t.root.renamed ρ := rfl

theorem regeneration?_renamed (style : RunStyle) (source : Source) (base edited : Text) :
    regeneration? style (source.renamed ρ) base edited = regeneration? style source base edited := by
  simp only [regeneration?, Option.bind_eq_bind, LoadedTree.ofBase_renamed, toOption_map, Option.bind_map,
    Function.comp_def, LoadedTree.ofEdited_renamed, root_renamed, regenerate_toOption]

/-- What a file is called does not matter. -/
theorem regeneration?_congr (style : RunStyle) (a b : String) (text base edited : Text) :
    regeneration? style { name := b, text } base edited = regeneration? style { name := a, text } base edited := by
  -- Renaming has to be one-to-one for trees to keep apart what is in different files: the names are exchanged.
  have h := regeneration?_renamed (Equiv.swap a b) style { name := a, text } base edited
  rwa [Source.renamed, Equiv.swap_apply_left] at h

/-- The answer of a job that asks for the edits of `g`, if they can be applied. -/
def answer? (source : Text) (g : Regeneration) : Option Processed :=
  if g.edits.isEmpty then some { edits := [], warnings := g.diagnostics.map (·.message), old := source, new := none }
  else do
    let new ← (Edit.applyAll source g.edits).toOption
    some { edits := g.edits.map (EditInfo.ofEdit source), warnings := g.diagnostics.map (·.message), old := source
           new := some new }

theorem toOption_bind {ε α β : Type} (x : Except ε α) (f : α → Except ε β) :
    (x >>= f).toOption = x.toOption.bind fun a => (f a).toOption := by
  cases x <;> rfl

/-- Faults apart, a job answers to what its texts ask for. -/
theorem run_toOption (job : Job) (style : RunStyle) (source base edited : Text) :
    (job.run style source base edited).toOption =
      (regeneration? style { name := String.ofList job.source, text := source } base edited).bind (answer? source) := by
  have hanswer : ∀ g : Regeneration, (if g.edits.isEmpty then
        pure { edits := [], warnings := g.diagnostics.map (·.message), old := source, new := none }
      else do
        let new ← (Edit.applyAll source g.edits).mapError (ProcessError.edits job.source)
        return { edits := g.edits.map (EditInfo.ofEdit source), warnings := g.diagnostics.map (·.message), old := source
                 new := some new } : Except ProcessError Processed).toOption = answer? source g := by
    intro g
    unfold answer?
    split
    · rfl
    · rw [toOption_bind, toOption_mapError]
      rfl
  simp only [run, toOption_bind, toOption_mapError, hanswer, regeneration?, Option.bind_eq_bind, Option.bind_assoc]
  rfl

end Job

end Reprint
