import Reprint.Document.Fields
/-!
Reading documents. A node is an object, or an array that gives the fields in order. An object with a
string under `ref` is a reference, whatever else it holds. Unknown keys are passed over, and so is what
the document itself holds besides `file` and `root`.
-/

namespace Reprint

namespace Document

/-! ### Simple fields -/

/-- Reads an optional field. It may be null. -/
def optional? {α : Type} (read : Json → Option α) : Json → Option (Option α)
  | .null => some none
  | v => (read v).map some

/-- Reads a list. -/
def list? {α : Type} (read : Json → Option α) : Json → Option (List α)
  | .array items => items.mapM read
  | _ => none

/-- Reads a string. -/
def string? : Json → Option String
  | .string s => some s
  | _ => none

/-- Reads a truth value. -/
def bool? : Json → Option Bool
  | .bool b => some b
  | _ => none

/-- Reads an offset of at most 32 bits. -/
def offset? : Json → Option Nat
  | .number (.int n) => if 0 ≤ n ∧ n < 0x100000000 then some n.toNat else none
  | _ => none

/-- The values that an object holds under a key. -/
def valuesOf (key : String) (members : List (String × Json)) : List Json :=
  members.filterMap fun (k, v) => if k = key then some v else none

/-- Reads a field that may be left out but not repeated. -/
def member? {α : Type} (key : String) (absent : Option α) (read : Json → Option α)
    (members : List (String × Json)) : Option α :=
  match valuesOf key members with
  | [] => absent
  | [v] => read v
  | _ => none

/-- Reads a name: a string, or an object with its text and its offsets. -/
def nameField? : Json → Option NameField
  | .string text => some { text }
  | .object members => do
    let text ← member? "text" none string? members
    let offsets ← member? "pos" (some none) (optional? (list? offset?)) members
    return { text, offsets }
  | _ => none

/-- Reads a flag: a string, or an object with null under the flag. -/
def flag? : Json → Option Modifier
  | .string s => Modifier.ofName? s
  | .object [(s, .null)] => Modifier.ofName? s
  | _ => none

/-- Reads a modifier: a flag, or an object with its flag and its offsets. -/
def modifierField? (v : Json) : Option ModifierField :=
  match flag? v with
  | some flag => some { flag }
  | none =>
    match v with
    | .object members => do
      let flag ← member? "flag" none flag? members
      let offsets ← member? "pos" (some none) (optional? (list? offset?)) members
      return { flag, offsets }
    | _ => none

/-! ### Nodes -/

namespace Fields

variable {α : Type}

/-- The keys of all fields, in order. -/
def keys : List String :=
  ["kind", "id", "pos", "transparent", "name", "mods", "pid", "stats", "tparams", "template", "parents",
   "super_args", "self_type", "tpt", "rhs", "vparamss", "value", "qual", "qualifier", "fun", "args", "expr",
   "selector", "cases", "pat", "guard", "body", "cond", "then", "else", "params", "selectors", "rename"]

/-- Reads one field, with `node` where a node is expected. -/
def set? (node : Json → Option α) (f : Fields α) (key : String) (v : Json) : Option (Fields α) :=
  let single := optional? node
  let many := list? node
  match key with
  | "kind" => do return { f with kind := ← string? v }
  | "id" => do return { f with id := ← optional? string? v }
  | "pos" => do return { f with offsets := ← optional? (list? offset?) v }
  | "transparent" => do return { f with transparent := ← bool? v }
  | "name" => do return { f with name := ← optional? nameField? v }
  | "mods" => do return { f with mods := ← list? modifierField? v }
  | "pid" => do return { f with pid := ← single v }
  | "stats" => do return { f with stats := ← many v }
  | "tparams" => do return { f with tparams := ← many v }
  | "template" => do return { f with template := ← single v }
  | "parents" => do return { f with parents := ← many v }
  | "super_args" => do return { f with superArgs := ← many v }
  | "self_type" => do return { f with selfType := ← single v }
  | "tpt" => do return { f with tpt := ← single v }
  | "rhs" => do return { f with rhs := ← single v }
  | "vparamss" => do return { f with vparamss := ← list? many v }
  | "value" => some { f with value := some v }
  | "qual" => do return { f with qual := ← optional? nameField? v }
  | "qualifier" => do return { f with qualifier := ← single v }
  | "fun" => do return { f with callee := ← single v }
  | "args" => do return { f with args := ← many v }
  | "expr" => do return { f with expr := ← single v }
  | "selector" => do return { f with selector := ← single v }
  | "cases" => do return { f with cases := ← many v }
  | "pat" => do return { f with pat := ← single v }
  | "guard" => do return { f with guard := ← single v }
  | "body" => do return { f with body := ← single v }
  | "cond" => do return { f with cond := ← single v }
  | "then" => do return { f with thenBranch := ← single v }
  | "else" => do return { f with elseBranch := ← single v }
  | "params" => do return { f with params := ← many v }
  | "selectors" => do return { f with selectors := ← many v }
  | "rename" => do return { f with rename := ← optional? nameField? v }
  | _ => some f

/-- Reads fields with their keys. No known key may be repeated. -/
def ofMembers? (node : Json → Option α) (members : List (String × Json)) : Option (Fields α) :=
  if keys.all fun key => (valuesOf key members).length ≤ 1 then
    members.foldlM (fun f (m : String × Json) => set? node f m.1 m.2) {}
  else none

/-- Reads fields in order. Those at the end may be left out. -/
def ofItems? (node : Json → Option α) (items : List Json) : Option (Fields α) :=
  if items.length ≤ keys.length then
    (keys.zip items).foldlM (fun f (m : String × Json) => set? node f m.1 m.2) {}
  else none

end Fields

/-- The target of a reference. -/
def target? (members : List (String × Json)) : Option String :=
  match valuesOf "ref" members with
  | [.string s] => some s
  | _ => none

/-- Reads a node in which nodes are at most `depth` deep. -/
def NodeDoc.ofJson? : Nat → Json → Option NodeDoc
  | 0, _ => none
  | depth + 1, .object members =>
    match target? members with
    | some s => some (.ref s)
    | none => (Fields.ofMembers? (ofJson? depth) members).map .node
  | depth + 1, .array items => (Fields.ofItems? (ofJson? depth) items).map .node
  | _ + 1, _ => none

end Document

/-! ### Documents -/

/-- A tree document: the file it belongs to and its root. -/
structure Document where
  file : String
  root : Document.NodeDoc

namespace Document

/-- The members of an object whose key is a given one, as written. None if some key is no string. -/
def members? (members : List (List Json.Piece × Json.Raw)) : Option (List (String × Json.Raw)) :=
  members.mapM fun (m : List Json.Piece × Json.Raw) => do return (← Json.decodeString m.1, m.2)

/-- The file and the root of a written document, still unread. -/
def parts? : Json.Raw → Option (Json.Raw × Json.Raw)
  | .array [file, root] => some (file, root)
  | .object members => do
    let ms ← members? members
    let one (key : String) : Option Json.Raw :=
      match ms.filter (·.1 == key) with
      | [m] => some m.2
      | _ => none
    return (← one "file", ← one "root")
  | _ => none

/-- Reads a document. -/
def read? (text : Text) : Option Document := do
  let (file, root) ← parts? (← Json.Raw.read? text)
  let inner := Json.maxDepth - 1
  return { file := ← string? (← file.value? inner), root := ← NodeDoc.ofJson? inner (← root.value? inner) }

end Document

end Reprint
