import Reprint.Document.Decode
import Reprint.Document.Error
import Reprint.Tree.Node
/-!
Building trees from documents. Nodes are built field by field in the order of the text they describe, and
the first fault ends the work. Each built node gets a number of its own; a reference stands for a node of
the base document, which so keeps its identity.
-/

namespace Reprint

/-- A tree built from a document, the nodes that have ids, and the first number that is still free. -/
structure LoadedTree where
  root : Node
  ids : List (String × Node)
  next : Nat

namespace LoadedTree

/-- The node with an id. -/
def byId? (t : LoadedTree) (id : String) : Option Node := t.ids.lookup id

end LoadedTree

namespace Document

/-- What a document is read against: the text, and the nodes that references may name. -/
structure Context where
  source : Source
  shared : List (String × Node) := []

/-- The nodes with ids so far, and the next free number. -/
structure Progress where
  ids : List (String × Node) := []
  next : Nat := 0

/-- A step of building a tree. -/
abbrev Build := ReaderT Context (StateT Progress (Except DocumentError))

namespace Build

/-- Fails. -/
def fail {α : Type} (e : DocumentError) : Build α := fun _ _ => .error e

/-! ### Places -/

/-- Reads two or three offsets as a range, with the point between its ends. -/
def splitOffsets : List Nat → Except DocumentError (Nat × Nat × Nat)
  | [start, stop] => .ok (start, start, stop)
  | [start, point, stop] => .ok (start, point, stop)
  | l => .error (.offsetCount l.length)

/-- Checks offsets against the text. -/
def spanOf (source : Source) (offsets : List Nat) : Except DocumentError Span := do
  let (start, point, stop) ← splitOffsets offsets
  if stop < start ∨ source.size < stop then throw (.outOfBounds { start, stop, size := source.size })
  if point < start ∨ stop < point then throw (.pointOutside point start stop)
  match [start, point, stop].find? fun n => !source.text.isBoundary n with
  | some n => throw (.insideCharacter n)
  | none => return { file := source.name, start, point, stop }

/-- The span of optional offsets. -/
def span (offsets : Option (List Nat)) : Build (Option Span) := do
  match offsets with
  | none => return none
  | some l =>
    match spanOf (← read).source l with
    | .ok s => return some s
    | .error e => fail e

/-! ### Fields -/

/-- A name with its span. -/
def name (f : NameField) : Build Name := do return { text := f.text, span := ← span f.offsets }

/-- A name that must be given. -/
def requiredName (tag : Tag) : Option NameField → Build Name
  | some f => name f
  | none => fail (.missing tag "name")

/-- A name that may be left out. -/
def optionalName : Option NameField → Build (Option Name)
  | some f => do return some (← name f)
  | none => return none

/-- The modifiers of a definition. -/
def modifiers (mods : List ModifierField) : Build (List ModifierToken) :=
  mods.mapM fun m => do return { flag := m.flag, span := ← span m.offsets }

/-- A node that must be given. -/
def required (tag : Tag) (field : String) : Option (Build Node) → Build Node
  | some node => node
  | none => fail (.missing tag field)

/-- A node that may be left out. -/
def optional : Option (Build Node) → Build (Option Node)
  | some node => do return some (← node)
  | none => return none

/-- A list of nodes. -/
def list (nodes : List (Build Node)) : Build (List Node) := nodes.mapM id

/-- The number of an integer literal has at most 63 bits besides its sign. -/
def maxInt : Int := 0x7fffffffffffffff

/-- The constant that a value stands for: no value is the unit, and an object with one character under
`char` is that character. -/
def constant? : Option Json → Option Constant
  | none => some .unit
  | some .null => some .null
  | some (.bool b) => some (.bool b)
  | some (.number (.int n)) =>
    if n ≤ maxInt then some (.int n) else (Binary64.ofRatio? false n.toNat 1).map .double
  | some (.number (.double x)) => some (.double x)
  | some (.string s) => some (.str s)
  | some v =>
    match v.sorted.get? "char" with
    | some (.string s) => match s.toList with
      | [c] => some (.char c)
      | _ => none
    | _ => none

/-- The constant of a literal. -/
def constant (value : Option Json) : Build Constant :=
  match constant? value with
  | some c => return c
  | none => fail (.unsupportedLiteral (value.getD .null).sorted)

/-! ### Nodes -/

/-- The layer that fields describe, for a tag that documents may use. -/
def layer (tag : Tag) (f : Fields (Build Node)) : Build (Kind Node) := do
  match tag with
  | .package => return .package (← required tag "pid" f.pid) (← list f.stats)
  | .classDef =>
    return .classDef (← modifiers f.mods) (← requiredName tag f.name) (← list f.tparams)
      (← required tag "template" f.template)
  | .objectDef =>
    return .objectDef (← modifiers f.mods) (← requiredName tag f.name) (← required tag "template" f.template)
  | .template =>
    return .template (← list f.parents) (← list f.superArgs) (← optional f.selfType) (← list f.stats)
  | .valDef =>
    return .valDef (← modifiers f.mods) (← requiredName tag f.name) (← optional f.tpt) (← optional f.rhs)
  | .methodDef =>
    return .methodDef (← modifiers f.mods) (← requiredName tag f.name) (← list f.tparams)
      (← f.vparamss.mapM list) (← optional f.tpt) (← optional f.rhs)
  | .typeDef =>
    return .typeDef (← modifiers f.mods) (← requiredName tag f.name) (← list f.tparams) (← optional f.rhs)
  | .ident => return .ident (← requiredName tag f.name).text
  | .literal => return .literal (← constant f.value)
  | .thisRef => return .thisRef (← optionalName f.qual)
  | .select => return .select (← required tag "qualifier" f.qualifier) (← requiredName tag f.name)
  | .apply => return .apply (← required tag "fun" f.callee) (← list f.args)
  | .newExpr => return .newExpr (← required tag "tpt" f.tpt)
  | .typed => return .typed (← required tag "expr" f.expr) (← required tag "tpt" f.tpt)
  | .matchExpr => return .matchExpr (← required tag "selector" f.selector) (← list f.cases)
  | .caseClause =>
    return .caseClause (← required tag "pat" f.pat) (← optional f.guard) (← required tag "body" f.body)
  | .bind => return .bind (← requiredName tag f.name) (← required tag "body" f.body)
  | .ifExpr =>
    return .ifExpr (← required tag "cond" f.cond) (← required tag "then" f.thenBranch) (← optional f.elseBranch)
  | .lambda => return .lambda (← list f.params) (← required tag "body" f.body)
  | .importDecl => return .importDecl (← required tag "expr" f.expr) (← list f.selectors)
  | .importSelector => return .importSelector (← requiredName tag f.name) (← optionalName f.rename)
  | .block => return .block (← list f.stats)
  | .selfType => return .selfType (← requiredName tag f.name) (← optional f.tpt)
  | .nameToken | .modifierToken | .superCall => fail (.unknownKind f.kind)

/-- A new node with the next free number. -/
def fresh (span : Option Span) (kind : Kind Node) : Build Node := do
  let n := (← get).next
  modify fun p => { p with next := n + 1 }
  return .mk (.built n) span kind

/-- Enters a node under its id. An id names one node only. -/
def register (id : Option String) (node : Node) : Build Unit := do
  match id with
  | none => return
  | some id =>
    if ((← get).ids.lookup id).isSome then fail (.duplicateId id)
    else modify fun p => { p with ids := (id, node) :: p.ids }

/-- The node that fields describe. -/
def assemble (f : Fields (Build Node)) : Build Node := do
  match (Tag.ofName? f.kind).filter (!·.isDerived) with
  | none => fail (.unknownKind f.kind)
  | some tag =>
    let place ← span f.offsets
    let place := place.map fun s => if f.transparent then { s with transparent := true } else s
    let node ← fresh place (← layer tag f)
    register f.id node
    return node

/-- The node of a reference. -/
def resolve (target : String) : Build Node := do
  match (← read).shared.lookup target with
  | some node => return node
  | none => fail (.unknownReference target)

/-- The node that a document describes. -/
def node : NodeDoc → Build Node
  | .ref target => resolve target
  | .node f => assemble (f.attach.map fun d => node d.1)
decreasing_by
  have := NodeDoc.sizeOf_lt_of_mem d.2
  simp only [NodeDoc.node.sizeOf_spec]
  omega

theorem node_node (f : Fields NodeDoc) : node (.node f) = assemble (f.map node) := by
  rw [node, Fields.map_attach]

end Build

/-- Builds the tree of a document, numbering nodes from `next` on. -/
def build (d : Document) (context : Context) (next : Nat) : Except DocumentError LoadedTree := do
  let (root, p) ← (Build.node d.root).run context |>.run { next }
  return { root, ids := p.ids, next := p.next }

end Document

namespace LoadedTree

/-- Loads a document with the given context. -/
def ofText (context : Document.Context) (next : Nat) (text : Text) : Except DocumentError LoadedTree :=
  match Document.read? text with
  | none => .error .malformed
  | some d => d.build context next

/-- Loads a base tree. It holds no references. -/
def ofBase (source : Source) (text : Text) : Except DocumentError LoadedTree :=
  ofText { source } 0 text

/-- Loads an edited tree, whose references name nodes of the base tree. -/
def ofEdited (source : Source) (text : Text) (base : LoadedTree) : Except DocumentError LoadedTree :=
  ofText { source, shared := base.ids } base.next text

end LoadedTree

end Reprint
