import Reprint.Tree.Node
/-!
Comparing two nodes by themselves, apart from what hangs below them: the place and the tag make the slot, the
name, flags or value make the content.
-/

namespace Reprint

namespace Node

/-- The same tag at the same place. Two nodes without a place are at the same place. -/
def sameSlot (a b : Node) : Bool :=
  a.tag == b.tag &&
    match a.span, b.span with
    | some s, some t => s.sameRange t
    | none, none => true
    | _, _ => false

/-- The flags of a definition, without order or repetition. -/
def flags (n : Node) : List Modifier := Modifier.all.filter n.hasModifier

/-- What an import selector brings in, and under which name. -/
def selected (n : Node) : String × Option String :=
  match n.kind with
  | .importSelector name rename => (name.text, rename.map (·.text))
  | _ => (n.name?.getD "", none)

/-- Whether two nodes differ in content. Nodes with different tags always do. -/
def contentDiffers (a b : Node) : Bool :=
  match a.kind, b.kind with
  | .nameToken s, .nameToken t => s != t
  | .ident s, .ident t => s != t
  | .modifierToken s, .modifierToken t => s != t
  | .literal s, .literal t => !s.same t
  | .thisRef s, .thisRef t => s.map (·.text) != t.map (·.text)
  | .select _ s, .select _ t => s.text != t.text
  | .bind s _, .bind t _ => s.text != t.text
  | .selfType s _, .selfType t _ => s.text != t.text
  | .importSelector .., .importSelector .. => a.selected != b.selected
  | .importDecl _ ss, .importDecl _ ts => ss.map selected != ts.map selected
  | _, _ =>
    a.tag != b.tag || (a.isDefinition && (a.name? != b.name? || a.flags != b.flags))

/-- The same slot with the same content. -/
def sameShape (a b : Node) : Bool := a.sameSlot b && !a.contentDiffers b

end Node

end Reprint
