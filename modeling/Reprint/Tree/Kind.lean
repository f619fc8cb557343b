import Reprint.Decimal.Shortest
import Reprint.Span
import Reprint.Text.Quoted
/-!
Kinds of syntax tree nodes. A `Kind` is one layer of a tree, with an `α` wherever a node hangs below; its
`slots` list these. Names and modifiers are tokens of their owner and become nodes only when they have a
place in the text.
-/

namespace Reprint

/-! ### Tokens and constants -/

/-- An identifier, and where it stands if it was written. -/
structure Name where
  text : String
  span : Option Span := none
deriving DecidableEq

/-- Flags a definition can carry. -/
inductive Modifier where
  | privateMod
  | protectedMod
  | overrideMod
  | abstractMod
  | finalMod
  | sealedMod
  | implicitMod
  | lazyMod
  | caseMod
  /-- A constructor parameter of a class. -/
  | paramAccessor
  /-- An early initializer, evaluated before the super constructor. -/
  | preSuper
deriving DecidableEq

namespace Modifier

/-- Every modifier. -/
def all : List Modifier :=
  [.privateMod, .protectedMod, .overrideMod, .abstractMod, .finalMod, .sealedMod, .implicitMod, .lazyMod,
   .caseMod, .paramAccessor, .preSuper]

/-- The name of a modifier in documents. -/
def name : Modifier → String
  | privateMod => "private"
  | protectedMod => "protected"
  | overrideMod => "override"
  | abstractMod => "abstract"
  | finalMod => "final"
  | sealedMod => "sealed"
  | implicitMod => "implicit"
  | lazyMod => "lazy"
  | caseMod => "case"
  | paramAccessor => "param_accessor"
  | preSuper => "pre_super"

/-- The modifier with a given name. -/
def ofName? (s : String) : Option Modifier := all.find? (·.name == s)

/-- The keyword a modifier is written as. Two of them are never written. -/
def keyword? : Modifier → Option String
  | paramAccessor => none
  | preSuper => none
  | m => some m.name

end Modifier

/-- A modifier of a definition, and where its keyword stands if it was written. -/
structure ModifierToken where
  flag : Modifier
  span : Option Span := none
deriving DecidableEq

/-- The value of a literal. -/
inductive Constant where
  | unit
  | null
  | bool (b : Bool)
  | int (n : Int)
  | double (x : Binary64)
  | char (c : Char)
  | str (s : String)
deriving DecidableEq

namespace Constant

/-- Double literals are written without an exponent from `1e-4` on; of two equally near decimals the upper
one is taken. -/
def doubleStyle : Decimal.Style := { least := -3, tie := .up }

/-- A literal as it is written. -/
def render : Constant → Text
  | unit => ['(', ')']
  | null => "null".toList
  | bool b => (toString b).toList
  | int n => (toString n).toList
  | double x => Decimal.render doubleStyle x
  | char c => Quoted.char c
  | str s => Quoted.string s

/-- Equality of values. The two zeros are one double. -/
def same : Constant → Constant → Bool
  | double x, double y => x.sameValue y
  | a, b => a == b

end Constant

/-! ### Kinds -/

/-- What a node is, without what hangs below it. -/
inductive Tag where
  | package
  | classDef
  | objectDef
  | template
  | valDef
  | methodDef
  | typeDef
  | ident
  | literal
  | thisRef
  | select
  | apply
  | newExpr
  | typed
  | matchExpr
  | caseClause
  | bind
  | ifExpr
  | lambda
  | importDecl
  | importSelector
  | block
  | nameToken
  | modifierToken
  | selfType
  | superCall
deriving DecidableEq

namespace Tag

/-- Every tag. -/
def all : List Tag :=
  [package, classDef, objectDef, template, valDef, methodDef, typeDef, ident, literal, thisRef, select, apply,
   newExpr, typed, matchExpr, caseClause, bind, ifExpr, lambda, importDecl, importSelector, block, nameToken,
   modifierToken, selfType, superCall]

/-- The name of a tag in documents and messages. -/
def name : Tag → String
  | package => "package"
  | classDef => "class"
  | objectDef => "module"
  | template => "template"
  | valDef => "val"
  | methodDef => "def"
  | typeDef => "type"
  | ident => "ident"
  | literal => "literal"
  | thisRef => "this"
  | select => "select"
  | apply => "apply"
  | newExpr => "new"
  | typed => "typed"
  | matchExpr => "match"
  | caseClause => "case"
  | bind => "bind"
  | ifExpr => "if"
  | lambda => "function"
  | importDecl => "import"
  | importSelector => "import_selector"
  | block => "block"
  | nameToken => "name"
  | modifierToken => "modifier"
  | selfType => "self_type"
  | superCall => "super_call"

/-- The tag with a given name. -/
def ofName? (s : String) : Option Tag := all.find? (·.name == s)

/-- Whether nodes with this tag are derived from their owner and never stand in a document. -/
def isDerived : Tag → Bool
  | nameToken | modifierToken | superCall => true
  | _ => false

/-- Whether nodes with this tag define a name. -/
def isDefinition : Tag → Bool
  | classDef | objectDef | valDef | methodDef | typeDef => true
  | _ => false

/-- Whether the children of nodes with this tag are a plain sequence of statements. -/
def isSequence : Tag → Bool
  | block | template | package => true
  | _ => false

end Tag

/-- One layer of a tree. -/
inductive Kind (α : Type) where
  | package (pid : α) (stats : List α)
  | classDef (mods : List ModifierToken) (name : Name) (tparams : List α) (impl : α)
  | objectDef (mods : List ModifierToken) (name : Name) (impl : α)
  /-- The body of a class or object. `body` holds constructor parameters and early initializers, known by
  their modifiers, next to ordinary members. -/
  | template (parents superArgs : List α) (self : Option α) (body : List α)
  | valDef (mods : List ModifierToken) (name : Name) (tpt rhs : Option α)
  | methodDef (mods : List ModifierToken) (name : Name) (tparams : List α) (vparamss : List (List α))
      (tpt rhs : Option α)
  | typeDef (mods : List ModifierToken) (name : Name) (tparams : List α) (rhs : Option α)
  | ident (name : String)
  | literal (value : Constant)
  | thisRef (qual : Option Name)
  | select (qualifier : α) (name : Name)
  | apply (callee : α) (args : List α)
  | newExpr (tpt : α)
  | typed (expr tpt : α)
  | matchExpr (selector : α) (cases : List α)
  | caseClause (pat : α) (guard : Option α) (body : α)
  | bind (name : Name) (body : α)
  | ifExpr (cond thenBranch : α) (elseBranch : Option α)
  | lambda (params : List α) (body : α)
  | importDecl (expr : α) (selectors : List α)
  | importSelector (name : Name) (rename : Option Name)
  | block (stats : List α)
  /-- An identifier token of its owner. -/
  | nameToken (name : String)
  /-- A modifier keyword of its owner. -/
  | modifierToken (flag : Modifier)
  | selfType (name : Name) (tpt : Option α)
  /-- The first parent of a template, applied to the arguments of the super constructor. -/
  | superCall (callee : α) (args : List α)

namespace Kind

variable {α : Type}

/-- The tag of a layer. -/
def tag : Kind α → Tag
  | package .. => .package
  | classDef .. => .classDef
  | objectDef .. => .objectDef
  | template .. => .template
  | valDef .. => .valDef
  | methodDef .. => .methodDef
  | typeDef .. => .typeDef
  | ident .. => .ident
  | literal .. => .literal
  | thisRef .. => .thisRef
  | select .. => .select
  | apply .. => .apply
  | newExpr .. => .newExpr
  | typed .. => .typed
  | matchExpr .. => .matchExpr
  | caseClause .. => .caseClause
  | bind .. => .bind
  | ifExpr .. => .ifExpr
  | lambda .. => .lambda
  | importDecl .. => .importDecl
  | importSelector .. => .importSelector
  | block .. => .block
  | nameToken .. => .nameToken
  | modifierToken .. => .modifierToken
  | selfType .. => .selfType
  | superCall .. => .superCall

/-- Everything that hangs below a layer, slot by slot. -/
def slots : Kind α → List α
  | package pid stats => pid :: stats
  | classDef _ _ tparams impl => tparams ++ [impl]
  | objectDef _ _ impl => [impl]
  | template parents superArgs self body => parents ++ superArgs ++ self.toList ++ body
  | valDef _ _ tpt rhs => tpt.toList ++ rhs.toList
  | methodDef _ _ tparams vparamss tpt rhs => tparams ++ vparamss.flatten ++ tpt.toList ++ rhs.toList
  | typeDef _ _ tparams rhs => tparams ++ rhs.toList
  | select qualifier _ => [qualifier]
  | apply callee args => callee :: args
  | newExpr tpt => [tpt]
  | typed expr tpt => [expr, tpt]
  | matchExpr selector cases => selector :: cases
  | caseClause pat guard body => pat :: guard.toList ++ [body]
  | bind _ body => [body]
  | ifExpr cond thenBranch elseBranch => cond :: thenBranch :: elseBranch.toList
  | lambda params body => params ++ [body]
  | importDecl expr selectors => expr :: selectors
  | block stats => stats
  | selfType _ tpt => tpt.toList
  | superCall callee args => callee :: args
  | ident _ | literal _ | thisRef _ | importSelector .. | nameToken _ | modifierToken _ => []

/-- The modifiers of a definition. -/
def modifiers : Kind α → List ModifierToken
  | classDef mods .. | objectDef mods .. | valDef mods .. | methodDef mods .. | typeDef mods .. => mods
  | _ => []

/-- The name of a named layer. -/
def name? : Kind α → Option String
  | classDef _ name .. | objectDef _ name _ | valDef _ name .. | methodDef _ name .. | typeDef _ name .. =>
    some name.text
  | select _ name | bind name _ | importSelector name _ | selfType name _ => some name.text
  | ident name | nameToken name => some name
  | _ => none

end Kind

end Reprint
