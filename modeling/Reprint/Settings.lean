import Reprint.Pattern
import Reprint.Style
import Reprint.Toml.Table
/-!
Settings from a file: the style of printed code, the paths to leave out, and the format of reports. What the
command line gives counts before what the file says.
-/

namespace Reprint

/-- The indentation that a settings file asks for: a number of spaces, or words. -/
inductive IndentSetting where
  | width (n : Nat)
  | named (s : String)
deriving DecidableEq

/-- The contents of a settings file. -/
structure Settings where
  indent : Option IndentSetting := none
  lineEnding : Option String := none
  /-- Patterns of paths to leave out. -/
  exclude : List String := []
  format : Option String := none
deriving DecidableEq

/-- A setting that means nothing. -/
inductive SettingError where
  | indent (setting : String)
  | lineEnding (setting : String)
  | format (setting : String)
deriving DecidableEq

/-- A fault in words. -/
def SettingError.message : SettingError → String
  | indent s => "Invalid indent '" ++ s ++ "'. Use a number of spaces or \"tab\""
  | lineEnding s => "Invalid line ending '" ++ s ++ "'. Valid options: lf, crlf"
  | format s => "Invalid output format '" ++ s ++ "'. Valid options: text, json, diff"

namespace Settings

/-! ### Reading -/

/-- The values of the given keys of a table. An array may stand for a table; its items are the values in
order. A date counts as a table with none of the keys. -/
def values? (keys : List String) : Toml.Item → Option (List (Option Toml.Item))
  | .scalar (.date _) => some (keys.map fun _ => none)
  | .table _ entries | .closed entries => some (keys.map fun k => entries.lookup k)
  | .array items => some ((List.range keys.length).map (items[·]?))
  | .tables elements =>
    let items := elements.reverse.map (Toml.Item.table .header)
    some ((List.range keys.length).map (items[·]?))
  | _ => none

/-- Reads a string. -/
def string? : Toml.Item → Option String
  | .string s => some s
  | _ => none

/-- Reads an indentation. -/
def indent? : Toml.Item → Option IndentSetting
  | .scalar (.int n) => if 0 ≤ n then some (.width n.toNat) else none
  | .string s => some (.named s)
  | _ => none

/-- Reads a list of strings. -/
def strings? : Toml.Item → Option (List String)
  | .array items => items.mapM string?
  | _ => none

/-- Reads a value that may be left out. -/
def optional? {α : Type} (read : Toml.Item → Option α) : Option Toml.Item → Option (Option α)
  | none => some none
  | some v => (read v).map some

/-- The values of the given keys of a section, which may be left out. -/
def section? (root : Toml.Entries) (name : String) (keys : List String) : Option (List (Option Toml.Item)) :=
  match root.lookup name with
  | none => some (keys.map fun _ => none)
  | some v => values? keys v

/-- Reads settings. Unknown keys do not matter. -/
def ofToml? (root : Toml.Entries) : Option Settings := do
  let layout ← section? root "layout" ["indent", "line_ending"]
  let paths ← section? root "paths" ["exclude"]
  let output ← section? root "output" ["format"]
  let indent ← optional? indent? (layout[0]?.bind id)
  let lineEnding ← optional? string? (layout[1]?.bind id)
  let exclude ← optional? strings? (paths[0]?.bind id)
  let format ← optional? string? (output[0]?.bind id)
  return { indent, lineEnding, exclude := exclude.getD [], format }

/-- Reads a settings file. -/
def read? (t : Text) : Option Settings := do ofToml? (← Toml.read? t)

/-! ### Style -/

/-- The indentation to print with. -/
def indentStyle (s : Settings) (given : Option String) : Except SettingError IndentStyle :=
  let parse (setting : String) : Except SettingError IndentStyle :=
    match IndentStyle.ofText? setting.toList with
    | some style => .ok style
    | none => .error (.indent setting)
  match given, s.indent with
  | some setting, _ => parse setting
  | none, some (.width n) => .ok (.spaces n)
  | none, some (.named setting) => parse setting
  | none, none => .ok ({} : Style).indent

/-- The line ending to print with, none if every file keeps its own. -/
def lineEnding? (s : Settings) (given : Option String) : Except SettingError (Option LineEnding) :=
  match given.or s.lineEnding with
  | none => .ok none
  | some setting =>
    match LineEnding.ofText? setting.toList with
    | some ending => .ok (some ending)
    | none => .error (.lineEnding setting)

/-! ### Excluded paths -/

/-- Whether a text occurs in another. -/
def occursIn (needle : Text) : Text → Bool
  | [] => needle.isEmpty
  | c :: t => needle.isPrefixOf (c :: t) || occursIn needle t

/-- Whether a path or its last name matches a pattern. -/
def matchesPath (pattern path : Text) : Bool :=
  match Pattern.read? pattern with
  | some p => p.isMatch path || (Path.fileName? path).any p.isMatch
  | none => false

/-- Whether a path lies in the directory that a pattern with a slash at its end names. -/
def liesUnder (pattern path : Text) : Bool :=
  pattern.getLast? = some '/' &&
    let directory := (pattern.reverse.dropWhile (· == '/')).reverse ++ ['/']
    occursIn ('/' :: directory) path || directory.isPrefixOf path

/-- Whether a path is left out. -/
def excludes (s : Settings) (path : Text) : Bool :=
  s.exclude.any fun pattern => matchesPath pattern.toList path || liesUnder pattern.toList path

end Settings

end Reprint
