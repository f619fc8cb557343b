import Reprint.Print.Doc
import Reprint.Tree.Children
/-!
Printing nodes from scratch, without regard to where they once stood.
-/

namespace Reprint

/-- Why a node cannot be printed. -/
inductive PrintError where
  /-- Nothing is written for nodes with this tag. -/
  | unsupported (tag : Tag)
deriving DecidableEq

/-- A fault in words. -/
def PrintError.message : PrintError → String
  | unsupported tag => "Cannot print " ++ tag.name ++ " nodes"

/-- How a node is used by its parent. -/
inductive Role where
  | plain
  /-- A value parameter, written without keywords. -/
  | param
  /-- The body of a class, which begins with its constructor parameters. -/
  | classBody
deriving DecidableEq

namespace Doc

/-- Keywords in front of a definition. -/
def keywords (mods : List ModifierToken) : Doc :=
  mods.flatMap fun m => match m.flag.keyword? with
    | some k => text k ++ text " "
    | none => []

/-- Type parameters, of which only the names are written. -/
def typeParams (tparams : List Node) : Doc :=
  if tparams.isEmpty then []
  else text "[" ++ join ", " (tparams.map fun p => text (p.name?.getD "_")) ++ text "]"

/-- A list between parentheses. -/
def parens (ds : List Doc) : Doc := text "(" ++ join ", " ds ++ text ")"

/-- Lines between braces. -/
def braces (lines : List Doc) : Doc := text "\x7b" ++ lines.flatMap nestedLine ++ [.line 0] ++ text "\x7d"

end Doc

open Doc in
/-- The code of a node. -/
def Node.doc (role : Role) (n : Node) : Except PrintError Doc :=
  match n with
  | .mk _ _ (.package pid stats) => do
    let pid ← pid.doc .plain
    let stats ← stats.attach.mapM fun ⟨s, _⟩ => s.doc .plain
    return text "package " ++ pid ++ stats.flatMap fun s => [.emptyLine, .line 0] ++ s
  | .mk _ _ (.classDef mods name tparams impl) => do
    let impl ← impl.doc .classBody
    return keywords mods ++ text "class " ++ text name.text ++ typeParams tparams ++ impl
  | .mk _ _ (.objectDef mods name impl) => do
    let impl ← impl.doc .plain
    return keywords mods ++ text "object " ++ text name.text ++ impl
  | .mk _ _ (.template parents superArgs self body) => do
    let params ← if role = .classBody then
        (body.filter isParameter).attach.mapM fun ⟨p, _⟩ => p.doc .param
      else pure []
    let superArgs ← if parents.isEmpty then pure []
      else superArgs.attach.mapM fun ⟨a, _⟩ => a.doc .plain
    let parents ← parents.attach.mapM fun ⟨p, _⟩ => p.doc .plain
    let self ← self.attach.mapM fun ⟨s, _⟩ => s.doc .plain
    let members ← (body.filter (!·.isParameter)).attach.mapM fun ⟨m, _⟩ => m.doc .plain
    let head := if params.isEmpty then [] else parens params
    let middle := match parents with
      | [] => []
      | first :: rest =>
        text " extends " ++ first ++ (if superArgs.isEmpty then [] else parens superArgs) ++
          rest.flatMap fun p => text " with " ++ p
    let tail := if self.isNone && members.isEmpty then []
      else text " \x7b" ++ optional " " (self.map nest) ++ members.flatMap nestedLine ++ [.line 0] ++ text "\x7d"
    return head ++ middle ++ tail
  | .mk _ _ (.valDef mods name tpt rhs) => do
    let tpt ← tpt.attach.mapM fun ⟨t, _⟩ => t.doc .plain
    let rhs ← rhs.attach.mapM fun ⟨r, _⟩ => r.doc .plain
    let front := if role = .param || mods.any (·.flag == .paramAccessor) then []
      else keywords mods ++ text "val "
    return front ++ text name.text ++ optional ": " tpt ++ optional " = " rhs
  | .mk _ _ (.methodDef mods name tparams vparamss tpt rhs) => do
    let vparamss ← vparamss.attach.mapM fun ⟨ps, _⟩ => ps.attach.mapM fun ⟨p, _⟩ => p.doc .param
    let tpt ← tpt.attach.mapM fun ⟨t, _⟩ => t.doc .plain
    let rhs ← rhs.attach.mapM fun ⟨r, _⟩ => r.doc .plain
    return keywords mods ++ text "def " ++ text name.text ++ typeParams tparams ++ vparamss.flatMap parens ++
      optional ": " tpt ++ optional " = " rhs
  | .mk _ _ (.typeDef mods name tparams rhs) => do
    let rhs ← rhs.attach.mapM fun ⟨r, _⟩ => r.doc .plain
    return keywords mods ++ text "type " ++ text name.text ++ typeParams tparams ++ optional " = " rhs
  | .mk _ _ (.ident name) => return text name
  | .mk _ _ (.nameToken name) => return text name
  | .mk _ _ (.literal value) => return [.text value.render]
  | .mk _ _ (.thisRef qual) => return (qual.map fun q => text q.text ++ text ".").getD [] ++ text "this"
  | .mk _ _ (.select qualifier name) => do
    let qualifier ← qualifier.doc .plain
    return qualifier ++ text "." ++ text name.text
  | .mk _ _ (.apply callee args) => do
    let callee ← callee.doc .plain
    let args ← args.attach.mapM fun ⟨a, _⟩ => a.doc .plain
    return callee ++ parens args
  | .mk _ _ (.superCall callee args) => do
    let callee ← callee.doc .plain
    let args ← args.attach.mapM fun ⟨a, _⟩ => a.doc .plain
    return callee ++ parens args
  | .mk _ _ (.newExpr tpt) => do
    let tpt ← tpt.doc .plain
    return text "new " ++ tpt
  | .mk _ _ (.typed expr tpt) => do
    let expr ← expr.doc .plain
    let tpt ← tpt.doc .plain
    return expr ++ text ": " ++ tpt
  | .mk _ _ (.matchExpr selector cases) => do
    let selector ← selector.doc .plain
    let cases ← cases.attach.mapM fun ⟨c, _⟩ => c.doc .plain
    return selector ++ text " match " ++ braces cases
  | .mk _ _ (.caseClause pat guard body) => do
    let pat ← pat.doc .plain
    let guard ← guard.attach.mapM fun ⟨g, _⟩ => g.doc .plain
    let body ← body.doc .plain
    return text "case " ++ pat ++ optional " if " guard ++ text " => " ++ body
  | .mk _ _ (.bind name body) => do
    let body ← body.doc .plain
    return text name.text ++ text " @ " ++ body
  | .mk _ _ (.ifExpr cond thenBranch elseBranch) => do
    let cond ← cond.doc .plain
    let thenBranch ← thenBranch.doc .plain
    let elseBranch ← elseBranch.attach.mapM fun ⟨e, _⟩ => e.doc .plain
    return text "if (" ++ cond ++ text ") " ++ thenBranch ++ optional " else " elseBranch
  | .mk _ _ (.lambda params body) => do
    let docs ← params.attach.mapM fun ⟨p, _⟩ => p.doc .param
    let body ← body.doc .plain
    let bare := match params with
      | [.mk _ _ (.valDef _ _ none _)] => true
      | _ => false
    return (if bare then docs.flatten else parens docs) ++ text " => " ++ body
  | .mk _ _ (.importDecl expr selectors) => do
    let expr ← expr.doc .plain
    let docs ← selectors.attach.mapM fun ⟨s, _⟩ => s.doc .plain
    let bare := match selectors with
      | [.mk _ _ (.importSelector _ none)] => true
      | _ => false
    return text "import " ++ expr ++ text "." ++
      if bare then docs.flatten else text "\x7b" ++ join ", " docs ++ text "\x7d"
  | .mk _ _ (.importSelector name rename) =>
    return text name.text ++ optional " => " (rename.map fun r => text r.text)
  | .mk _ _ (.block stats) => do
    let stats ← stats.attach.mapM fun ⟨s, _⟩ => s.doc .plain
    return if stats.isEmpty then text "\x7b\x7d" else braces stats
  | .mk _ _ (.modifierToken flag) =>
    match flag.keyword? with
    | some k => return text k
    | none => throw (.unsupported .modifierToken)
  | .mk _ _ (.selfType name tpt) => do
    let tpt ← tpt.attach.mapM fun ⟨t, _⟩ => t.doc .plain
    return text name.text ++ optional ": " tpt ++ text " =>"
termination_by n.weight
decreasing_by
  all_goals
    apply weight_lt_of_mem_slots
    simp_all [Node.kind, Kind.slots]
    try grind

/-- The text of a node in a style, printed from scratch. -/
def Node.pretty (style : Style) (n : Node) : Except PrintError Text := (n.doc .plain).map (Doc.render style)

end Reprint
