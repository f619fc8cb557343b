import Reprint.Change.Region
import Reprint.Layout.Around
import Reprint.Print.Pretty
import Reprint.Print.Separator
/-!
Printing edited trees with the text they came from. Nodes without changes are taken from the base text,
together with the blanks and comments around them. A changed node is put together from its children. A new
node goes to a fallback printer.
-/

namespace Reprint

/-- The text of a node and the text around it. -/
structure Fragment where
  leading : Text := []
  center : Text := []
  trailing : Text := []
  /-- Whether the center was printed from scratch. -/
  fresh : Bool := false

/-- All the text of a fragment. -/
def Fragment.text (f : Fragment) : Text := f.leading ++ f.center ++ f.trailing

/-- A node that the fallback printer could not print. -/
structure Diagnostic where
  tag : Tag
  message : String

/-- A printer that reuses base texts. -/
structure Printer where
  units : Units
  /-- Prints nodes without a base text. -/
  fallback : Node → Except PrintError Text
  style : Style := {}

/-- A step of printing. Diagnostics are kept even if it fails. -/
abbrev PrintM := ExceptT RegenError (StateM (List Diagnostic))

namespace Node

/-- Whether a node is its base node, or was built again without any change below it. -/
def isPristine (changed : NodeSet) (n base : Node) : Bool :=
  n.same base ||
    (!changed.contains n && n.sameShape base && n.children.length == base.children.length &&
      (n.children.attach.zip base.children).all fun (⟨c, _⟩, b) => c.sameSlot b && c.isPristine changed b)
termination_by n.weight
decreasing_by exact weight_lt_of_mem_children ‹_›

end Node

namespace Printer

/-- The text that a leaf stands for. -/
def leafText? (n : Node) : Option Text :=
  match n.kind with
  | .ident name | .nameToken name => some name.toList
  | .literal value => some value.render
  | .thisRef none => some "this".toList
  | _ => none

/-- What stands for a node that cannot be printed. -/
def placeholder (n : Node) : Text := ("/* " ++ n.tag.name ++ " */").toList

/-- Prints a node from scratch, or puts a placeholder and takes down why. -/
def printNew (p : Printer) (n : Node) : PrintM Text :=
  match p.fallback n with
  | .ok t => return t
  | .error e => do
    modify (· ++ [{ tag := n.tag, message := e.message }])
    return placeholder n

/-- Prints a node without children. -/
def printLeaf (p : Printer) (n : Node) : PrintM Text :=
  match leafText? n with
  | some t => return t
  | none => p.printNew n

/-- The text of the file that a span belongs to. -/
def sourceOf (p : Printer) (s : Span) : Except RegenError Source :=
  match p.units.source? s.file with
  | some source => .ok source
  | none => .error (.missingSource s.file)

/-- The text that stands at a span. -/
def sliceOf (p : Printer) (s : Span) : Except RegenError Text := do
  match (← p.sourceOf s).slice s.start s.stop with
  | .ok t => return t
  | .error e => throw (.outOfBounds e)

/-- The indentation of the line on which a span begins. -/
def indentationOf (p : Printer) (s : Span) : Except RegenError Text := do
  return (← p.sourceOf s).text.indentationAt s.start

/-- The indentation of a node's statements: that of the first child if it begins its line, otherwise one
level more than the node's own. -/
def childIndent (p : Printer) (source : Source) (base : Node) (indent : Text) : Text :=
  let deeper := indent ++ p.style.indent.unit
  match base.children.findSome? (·.layoutSpan) with
  | none => deeper
  | some first =>
    if source.text.isBoundary first.start then
      let ahead := source.text.before first.start
      if ahead.contains '\n' && ahead.lastLine.allBlank then ahead.lastLine else deeper
    else deeper

/-- The indentation of the line on which a text ends, or `indent` while it has no second line. -/
def currentIndent (t indent : Text) : Text :=
  if t.contains '\n' then t.indentationAt t.size else indent

/-- The separator that belongs in front of a child. -/
def expected? (parent : Node) (previous : Option Node) (child : Node) (fresh : Bool) : Option Separator :=
  match previous with
  | some left => some (.between parent left child)
  | none => if fresh then Separator.opening? parent child else none

/-- Adds a child to the text of its parent. -/
def addChild (parent : Node) (indent lineBreak : Text) (previous : Option Node) (out : Text) (child : Node)
    (f : Fragment) : Text :=
  let (insert, text) := match expected? parent previous child f.fresh with
    | some s => Separator.glue out (s.text lineBreak) f.text
    | none => ([], f.text)
  let out := out ++ insert
  out ++ if f.fresh then text.indentLines (currentIndent out indent) else text

/-- Adds children to the text of their parent. -/
def addChildren (parent : Node) (indent lineBreak : Text) :
    Option Node → Text → List (Node × Fragment) → Text
  | _, out, [] => out
  | previous, out, (child, f) :: rest =>
    addChildren parent indent lineBreak (some child)
      (addChild parent indent lineBreak previous out child f) rest

/-- Exchanges the indentation of a fragment that has moved below another parent. -/
def relocate (p : Printer) (f : Fragment) (base : Node) (context : Option Node) :
    Except RegenError Fragment :=
  match context, p.units.parent? base with
  | some context, some parent =>
    if parent.same context || !f.text.contains '\n' then .ok f
    else
      match parent.span, context.span with
      | some old, some new => do
        let old ← p.indentationOf old
        let new ← p.indentationOf new
        return if old = new then f else { center := f.text.reindent old new }
      | _, _ => .ok f
  | _, _ => .ok f

/-- Prints a node below the base node `context`. -/
def printIn (p : Printer) (changed : NodeSet) (context : Option Node) (n : Node) : PrintM Fragment :=
  match p.units.counterpart? n with
  | none => do return { center := ← p.printNew n, fresh := true }
  | some base =>
    match base.span with
    | none => do return { center := ← p.printNew n, fresh := true }
    | some span => do
      let layout ← liftM (Layout.around p.units base)
      let center ←
        if n.isPristine changed base then liftM (p.sliceOf span)
        else if n.children.isEmpty then p.printLeaf n
        else do
          let source ← liftM (p.sourceOf span)
          match ← liftM (Layout.affixes? source base) with
          | none => p.printNew n
          | some affixes => do
            let fragments ← n.children.attach.mapM fun ⟨c, _⟩ => do
              return (c, ← p.printIn changed (some base) c)
            let indent := source.text.indentationAt span.start
            let lineBreak := p.style.lineEnding.text ++ p.childIndent source base indent
            pure <| addChildren n indent lineBreak none affixes.leading fragments ++ affixes.trailing
      liftM (p.relocate { leading := layout.leading, center, trailing := layout.trailing } base context)
termination_by n.weight
decreasing_by exact Node.weight_lt_of_mem_children ‹_›

/-- Prints a node of which the nodes in `changed` count as changed. -/
def print (p : Printer) (changed : NodeSet) (n : Node) : PrintM Fragment := p.printIn changed none n

/-- The text that goes to the range of a region. -/
def printRegion (p : Printer) (r : Region) : PrintM Text := do
  let f ← p.print r.changed r.top
  if f.fresh then return f.center.indentLines (← liftM (p.indentationOf r.range))
  else return f.center

end Printer

end Reprint
