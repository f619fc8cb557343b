import Reprint.Layout.Rule
import Reprint.Tree.Node
/-!
Dividing the gaps around a node: between two siblings, before the first child of a parent and behind its
last one. A comma at the division separates the two sides and belongs to neither.
-/

namespace Reprint.Gap

/-- Two neighbours and their parent. -/
structure Junction where
  parent : Node
  left : Node
  right : Node

/-- A text without the byte at an offset, which is a character of its own. -/
def removeAt (t : Text) (offset : Nat) : Text := t.before offset ++ t.after (offset + 1)

/-- The left side of a gap divided at an offset. A comma at its end, comments apart, is dropped. -/
def leftOf (t : Text) (index : Nat) : Text :=
  let code := ((masked t).before index).trimEnd
  let left := t.before index
  if code.getLast? = some ',' then removeAt left (code.size - 1) else left

/-- The right side of a gap divided at an offset. A comma at its beginning, comments apart, is dropped. -/
def rightOf (t : Text) (index : Nat) : Text :=
  let ahead := (masked t).after index
  let right := t.after index
  if ahead.trimStart.head? = some ',' then removeAt right ahead.leadingBlanks.size else right

/-- Both sides of a gap divided at an offset. -/
def divide (t : Text) (index : Nat) : Text × Text := (leftOf t index, rightOf t index)

/-- The start of the line break whose line feed stands at an offset. -/
def lineBreakAt (t : Text) (lineFeed : Nat) : Nat :=
  if (t.before lineFeed).getLast? = some '\r' then lineFeed - 1 else lineFeed

/-- The offset behind the first opening brace. -/
def afterBrace? (t : Text) : Option Nat := (t.find? (· == '{')).map (· + 1)

/-- Where two definitions are divided: at the first line break, else at a comma. -/
def betweenDefinitions? (t : Text) : Option Nat :=
  match t.find? (· == '\n') with
  | some n => some (lineBreakAt t n)
  | none => t.find? (· == ',')

namespace Junction

/-- Whether the left neighbour is what a `match` looks at, and the right one its first case. -/
def opensCases (j : Junction) : Bool :=
  match j.parent.kind with
  | .matchExpr selector _ => selector.same j.left && j.right.tag == .caseClause
  | _ => false

/-- Whether the left neighbour is the last parameter of a method, and the right one its type or body. -/
def endsParameters (j : Junction) : Bool :=
  match j.parent.kind with
  | .methodDef _ _ _ vparamss tpt rhs =>
    vparamss.flatten.getLast?.any (·.same j.left) && (tpt.any (·.same j.right) || rhs.any (·.same j.right))
  | _ => false

/-- Where the kinds of the neighbours divide a gap, comments blanked out. What follows a modifier keyword
belongs to the right. -/
def index? (j : Junction) (code : Text) : Option Nat :=
  if j.left.tag = .modifierToken then some 0
  else if j.opensCases then afterBrace? code
  else if j.left.isDefinition && j.right.isDefinition then betweenDefinitions? code
  else if j.endsParameters then code.find? fun c => c == '=' || c == '{'
  else none

end Junction

/-- Where the gap between two siblings is divided. Without any rule all of it stays on the left. -/
def indexBetween (t : Text) (j : Junction) : Nat :=
  let index := match j.index? (masked t) with
    | some i => i
    | none => match Rule.find? t with
      | some (_, i) => i
      | none => t.size
  snap t index

/-- Where the gap before the first child of a parent is divided. -/
def indexLeading (parent : Node) (t : Text) : Nat :=
  let index :=
    if parent.isDefinition then t.size
    else match afterBrace? (masked t) with
      | some i => i
      | none => (afterCode? t).getD 0
  snap t index

/-- Where the gap behind the last child of a parent is divided: at the last line break before any code. -/
def indexTrailing (t : Text) : Nat :=
  let first := (firstCode? t).getD t.size
  let code := masked t
  let index := match (code.before first).findLast? (· == '\n') with
    | some n => lineBreakAt code n
    | none => first
  snap t index

/-- The gap between two siblings: what trails the left one and what leads the right one. -/
def splitBetween (t : Text) (j : Junction) : Text × Text := divide t (indexBetween t j)

/-- The gap before the first child: the parent's own text and what leads the child. -/
def splitLeading (parent : Node) (t : Text) : Text × Text := divide t (indexLeading parent t)

/-- The gap behind the last child: what trails the child and the parent's own text. -/
def splitTrailing (t : Text) : Text × Text := divide t (indexTrailing t)

end Reprint.Gap
