import Reprint.Text.Indent
import Reprint.Tree.Children
/-!
What stands between two neighbouring children of a node that is put together again, and how much of it is
still missing once the texts of the children are known.
-/

namespace Reprint

/-- What separates two children. -/
inductive Separator where
  | token (t : String)
  /-- A line break, and the indentation of the statements there. -/
  | lineBreak
deriving DecidableEq

namespace Separator

/-- A separator as text, where `lineBreak` stands for a line break. -/
def text (lineBreak : Text) : Separator → Text
  | token t => t.toList
  | .lineBreak => lineBreak

/-- Whether a node is one of some nodes. -/
def isIn (ns : List Node) (n : Node) : Bool := ns.any (·.same n)

/-- Whether a node fills an optional slot. -/
def fills (slot : Option Node) (n : Node) : Bool := slot.any (·.same n)

/-- Whether a node is a parent of a template, with or without arguments. -/
def isParent (parents : List Node) (n : Node) : Bool := isIn parents n || n.tag == .superCall

/-- What separates two children of a node. -/
def between (parent left right : Node) : Separator :=
  match parent.kind with
  | .apply callee _ | .superCall callee _ => if callee.same left then token "(" else token ", "
  | .block _ | .package .. => lineBreak
  | .template parents .. =>
    if left.isParameter && right.isParameter then token ", "
    else if isParent parents right then
      if isParent parents left then token " with " else token " extends "
    else lineBreak
  | .matchExpr selector _ => if selector.same left then token " match \x7b" else lineBreak
  | .caseClause pat guard _ => if pat.same left && fills guard right then token " if " else token " => "
  | .ifExpr cond _ _ => if cond.same left then token " " else token " else "
  | .lambda _ body => if body.same right then token " => " else token ", "
  | .select .. => token "."
  | .typed .. | .selfType .. => token ": "
  | .bind .. => token " @ "
  | .importDecl expr _ => if expr.same left then token "." else token ", "
  | .importSelector .. => token " => "
  | .valDef _ _ tpt rhs =>
    if fills rhs right then token " = " else if fills tpt right then token ": " else token " "
  | .methodDef _ _ tparams vparamss tpt rhs =>
    if fills rhs right then token " = "
    else if fills tpt right then token ": "
    else if fills tparams.head? right then token "["
    else if isIn tparams left && isIn tparams right then token ", "
    else if vparamss.any fun ps => isIn ps left && isIn ps right then token ", "
    else if isIn vparamss.flatten right then token "("
    else token " "
  | .classDef _ _ tparams _ =>
    if fills tparams.head? right then token "["
    else if isIn tparams left && isIn tparams right then token ", "
    else token " "
  | .typeDef _ _ tparams rhs =>
    if fills tparams.head? right then token "["
    else if isIn tparams left && isIn tparams right then token ", "
    else if fills rhs right then token " = "
    else token " "
  | _ => token " "

/-- What separates the text of a node from its first child. Only the first statement of a sequence stands on
a line of its own. -/
def opening? (parent first : Node) : Option Separator :=
  match parent.kind with
  | .block _ => some lineBreak
  | .template parents .. => if isParent parents first || first.isParameter then none else some lineBreak
  | _ => none

/-! ### Glue -/

/-- Whether a text holds a line feed. -/
def hasLineFeed (t : Text) : Bool := t.contains '\n'

/-- Whether a separator of blanks is there already. At the beginning of a text none is needed, except for a
line break. -/
def blankPresent (left separator right : Text) : Bool :=
  if hasLineFeed separator then hasLineFeed left.trailingBlanks || hasLineFeed right.leadingBlanks
  else left.isEmpty || !left.trailingBlanks.isEmpty || !right.leadingBlanks.isEmpty

/-- A separator without blanks on those sides where the neighbour has blanks. -/
def fit (left separator right : Text) : Text :=
  let s := if left.trailingBlanks.isEmpty then separator else separator.trimStart
  if right.leadingBlanks.isEmpty then s else s.trimEnd

/-- The part of a separator that is missing between two texts, and the right text. Nothing is missing where
either side has the separator, blanks apart. Behind an opening such as a parenthesis the right text loses
the spaces and tabs it begins with. -/
def glue (left separator right : Text) : Text × Text :=
  let core := separator.trim
  if core.isEmpty then (if blankPresent left separator right then [] else separator, right)
  else if core.isSuffixOf left && !separator.getLast?.any isBlank then ([], right.dropWhile Text.isIndent)
  else if core.isSuffixOf left.trimEnd || core.isPrefixOf right.trimStart then ([], right)
  else (fit left separator right, right)

end Separator

end Reprint
