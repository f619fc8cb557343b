import Reprint.Print.Pretty
/-!
Writing nodes as it goes. A writer knows how deep it is and puts the indentation of every line down at once, so that it
never holds code without a style.
-/

namespace Reprint

/-- A line break before a line at a depth. -/
def Style.newline (style : Style) (depth : Nat) : Text := style.lineEnding.text ++ style.indent.atDepth depth

namespace Writer

/-- A text behind a mark, if there is any. -/
def optional (mark : String) : Option Text → Text
  | some t => mark.toList ++ t
  | none => []

/-- Texts with commas between them. -/
def listed (ts : List Text) : Text := ", ".toList.intercalate ts

/-- A list between parentheses. -/
def parens (ts : List Text) : Text := "(".toList ++ listed ts ++ ")".toList

/-- Lines one level deeper, and the brace after them. -/
def rows (style : Style) (depth : Nat) (ts : List Text) : Text :=
  (ts.flatMap fun t => style.newline (depth + 1) ++ t) ++ style.newline depth ++ "\x7d".toList

/-- The body of a class or an object from its parts. -/
def template (style : Style) (depth : Nat) (params superArgs parents : List Text) (self : Option Text)
    (members : List Text) : Text :=
  (if params.isEmpty then [] else parens params) ++
    (match parents with
    | [] => []
    | first :: rest =>
      " extends ".toList ++ first ++ (if superArgs.isEmpty then [] else parens superArgs) ++
        rest.flatMap fun p => " with ".toList ++ p) ++
    if self.isNone && members.isEmpty then []
    else " \x7b".toList ++ optional " " self ++ rows style depth members

/-- Keywords in front of a definition. -/
def keywords (mods : List ModifierToken) : Text :=
  mods.flatMap fun m => match m.flag.keyword? with
    | some k => k.toList ++ " ".toList
    | none => []

/-- Type parameters, of which only the names are written. -/
def typeParams (tparams : List Node) : Text :=
  if tparams.isEmpty then []
  else "[".toList ++ listed (tparams.map fun p => (p.name?.getD "_").toList) ++ "]".toList

end Writer

open Writer in
/-- The text of a node that begins on a line at a depth, in a style. -/
def Node.write (style : Style) (depth : Nat) (role : Role) (n : Node) : Except PrintError Text :=
  match n with
  | .mk _ _ (.package pid stats) => do
    let pid ← pid.write style depth .plain
    let stats ← stats.attach.mapM fun ⟨s, _⟩ => s.write style depth .plain
    return "package ".toList ++ pid ++ stats.flatMap fun s => style.lineEnding.text ++ style.newline depth ++ s
  | .mk _ _ (.classDef mods name tparams impl) => do
    let impl ← impl.write style depth .classBody
    return keywords mods ++ "class ".toList ++ name.text.toList ++ typeParams tparams ++ impl
  | .mk _ _ (.objectDef mods name impl) => do
    let impl ← impl.write style depth .plain
    return keywords mods ++ "object ".toList ++ name.text.toList ++ impl
  | .mk _ _ (.template parents superArgs self body) => do
    let params ← if role = .classBody then
        (body.filter isParameter).attach.mapM fun ⟨p, _⟩ => p.write style depth .param
      else pure []
    let superArgs ← if parents.isEmpty then pure []
      else superArgs.attach.mapM fun ⟨a, _⟩ => a.write style depth .plain
    let parents ← parents.attach.mapM fun ⟨p, _⟩ => p.write style depth .plain
    let self ← self.attach.mapM fun ⟨s, _⟩ => s.write style (depth + 1) .plain
    let members ← (body.filter (!·.isParameter)).attach.mapM fun ⟨m, _⟩ => m.write style (depth + 1) .plain
    return template style depth params superArgs parents self members
  | .mk _ _ (.valDef mods name tpt rhs) => do
    let tpt ← tpt.attach.mapM fun ⟨t, _⟩ => t.write style depth .plain
    let rhs ← rhs.attach.mapM fun ⟨r, _⟩ => r.write style depth .plain
    let front := if role = .param || mods.any (·.flag == .paramAccessor) then []
      else keywords mods ++ "val ".toList
    return front ++ name.text.toList ++ optional ": " tpt ++ optional " = " rhs
  | .mk _ _ (.methodDef mods name tparams vparamss tpt rhs) => do
    let vparamss ← vparamss.attach.mapM fun ⟨ps, _⟩ => ps.attach.mapM fun ⟨p, _⟩ => p.write style depth .param
    let tpt ← tpt.attach.mapM fun ⟨t, _⟩ => t.write style depth .plain
    let rhs ← rhs.attach.mapM fun ⟨r, _⟩ => r.write style depth .plain
    return keywords mods ++ "def ".toList ++ name.text.toList ++ typeParams tparams ++ vparamss.flatMap parens ++
      optional ": " tpt ++ optional " = " rhs
  | .mk _ _ (.typeDef mods name tparams rhs) => do
    let rhs ← rhs.attach.mapM fun ⟨r, _⟩ => r.write style depth .plain
    return keywords mods ++ "type ".toList ++ name.text.toList ++ typeParams tparams ++ optional " = " rhs
  | .mk _ _ (.ident name) => return name.toList
  | .mk _ _ (.nameToken name) => return name.toList
  | .mk _ _ (.literal value) => return value.render
  | .mk _ _ (.thisRef qual) => return (qual.map fun q => q.text.toList ++ ".".toList).getD [] ++ "this".toList
  | .mk _ _ (.select qualifier name) => do
    let qualifier ← qualifier.write style depth .plain
    return qualifier ++ ".".toList ++ name.text.toList
  | .mk _ _ (.apply callee args) => do
    let callee ← callee.write style depth .plain
    let args ← args.attach.mapM fun ⟨a, _⟩ => a.write style depth .plain
    return callee ++ parens args
  | .mk _ _ (.superCall callee args) => do
    let callee ← callee.write style depth .plain
    let args ← args.attach.mapM fun ⟨a, _⟩ => a.write style depth .plain
    return callee ++ parens args
  | .mk _ _ (.newExpr tpt) => do
    let tpt ← tpt.write style depth .plain
    return "new ".toList ++ tpt
  | .mk _ _ (.typed expr tpt) => do
    let expr ← expr.write style depth .plain
    let tpt ← tpt.write style depth .plain
    return expr ++ ": ".toList ++ tpt
  | .mk _ _ (.matchExpr selector cases) => do
    let selector ← selector.write style depth .plain
    let cases ← cases.attach.mapM fun ⟨c, _⟩ => c.write style (depth + 1) .plain
    return selector ++ " match \x7b".toList ++ rows style depth cases
  | .mk _ _ (.caseClause pat guard body) => do
    let pat ← pat.write style depth .plain
    let guard ← guard.attach.mapM fun ⟨g, _⟩ => g.write style depth .plain
    let body ← body.write style depth .plain
    return "case ".toList ++ pat ++ optional " if " guard ++ " => ".toList ++ body
  | .mk _ _ (.bind name body) => do
    let body ← body.write style depth .plain
    return name.text.toList ++ " @ ".toList ++ body
  | .mk _ _ (.ifExpr cond thenBranch elseBranch) => do
    let cond ← cond.write style depth .plain
    let thenBranch ← thenBranch.write style depth .plain
    let elseBranch ← elseBranch.attach.mapM fun ⟨e, _⟩ => e.write style depth .plain
    return "if (".toList ++ cond ++ ") ".toList ++ thenBranch ++ optional " else " elseBranch
  | .mk _ _ (.lambda params body) => do
    let texts ← params.attach.mapM fun ⟨p, _⟩ => p.write style depth .param
    let body ← body.write style depth .plain
    let bare := match params with
      | [.mk _ _ (.valDef _ _ none _)] => true
      | _ => false
    return (if bare then texts.flatten else parens texts) ++ " => ".toList ++ body
  | .mk _ _ (.importDecl expr selectors) => do
    let expr ← expr.write style depth .plain
    let texts ← selectors.attach.mapM fun ⟨s, _⟩ => s.write style depth .plain
    let bare := match selectors with
      | [.mk _ _ (.importSelector _ none)] => true
      | _ => false
    return "import ".toList ++ expr ++ ".".toList ++
      if bare then texts.flatten else "\x7b".toList ++ listed texts ++ "\x7d".toList
  | .mk _ _ (.importSelector name rename) =>
    return name.text.toList ++ optional " => " (rename.map (·.text.toList))
  | .mk _ _ (.block stats) => do
    let stats ← stats.attach.mapM fun ⟨s, _⟩ => s.write style (depth + 1) .plain
    return if stats.isEmpty then "\x7b\x7d".toList else "\x7b".toList ++ rows style depth stats
  | .mk _ _ (.modifierToken flag) =>
    match flag.keyword? with
    | some k => return k.toList
    | none => throw (.unsupported .modifierToken)
  | .mk _ _ (.selfType name tpt) => do
    let tpt ← tpt.attach.mapM fun ⟨t, _⟩ => t.write style depth .plain
    return name.text.toList ++ optional ": " tpt ++ " =>".toList
termination_by n.weight
decreasing_by
  all_goals
    apply weight_lt_of_mem_slots
    simp_all [Node.kind, Kind.slots]
    try grind

end Reprint
