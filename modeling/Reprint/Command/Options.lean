import Reprint.Text.Basic
/-!
The command line: flags, options with a value, and paths. Arguments are read from left to right. An option waits for
its value until the next argument, and the last thing that was read is only taken down when something else begins,
so of two faults the one that shows first is told.
-/

namespace Reprint.Command

/-- What can be asked for on the command line, apart from paths. -/
inductive Flag where
  | base
  | edited
  | check
  | fix
  | verbose
  | format
  | json
  | indent
  | lineEnding
  | config
  | noConfig
  | help
  | version
deriving DecidableEq

namespace Flag

/-- All flags. -/
def all : List Flag :=
  [base, edited, check, fix, verbose, format, json, indent, lineEnding, config, noConfig, help, version]

/-- The name of a flag. -/
def name : Flag → String
  | base => "original"
  | edited => "edited"
  | check => "check"
  | fix => "fix"
  | verbose => "verbose"
  | format => "format"
  | json => "json"
  | indent => "indent"
  | lineEnding => "line-ending"
  | config => "config"
  | noConfig => "no-config"
  | help => "help"
  | version => "version"

/-- The letter of a flag. -/
def letter? : Flag → Option Char
  | verbose => some 'v'
  | help => some 'h'
  | version => some 'V'
  | _ => none

/-- The word for the value of a flag that takes one. -/
def valueName? : Flag → Option String
  | base | edited | config => some "PATH"
  | format => some "FORMAT"
  | indent => some "INDENT"
  | lineEnding => some "ENDING"
  | _ => none

/-- Whether a flag takes a path, which must not be empty. -/
def takesPath (f : Flag) : Bool := f.valueName? = some "PATH"

/-- A flag as it is shown in messages. -/
def shown (f : Flag) : String :=
  match f.valueName? with
  | some v => "--" ++ f.name ++ " <" ++ v ++ ">"
  | none => "--" ++ f.name

/-- What a flag is for. -/
def purpose : Flag → String
  | base => "Original tree document (default: <source>.orig.json)"
  | edited => "Edited tree document (default: <source>.edit.json)"
  | check => "Report what would change without writing (default mode)"
  | fix => "Write regenerated source back to the files"
  | verbose => "Show verbose output and debug logs"
  | format => "Output format: text, json, diff"
  | json => "Shorthand for --format json"
  | indent => "Indentation for newly printed code: a number of spaces or \"tab\""
  | lineEnding => "Line ending for newly printed code: lf or crlf (default: detect)"
  | config => "Path to config file (default: auto-detect .relayout.toml)"
  | noConfig => "Ignore config files"
  | help => "Print help"
  | version => "Print version"

/-- The flag of a name. -/
def ofName? (t : Text) : Option Flag := all.find? fun f => f.name.toList = t

/-- The flag of a letter. -/
def ofLetter? (c : Char) : Option Flag := all.find? fun f => f.letter? = some c

/-- The flag that a flag cannot stand beside. -/
def rival? : Flag → Option Flag
  | check => some fix
  | fix => some check
  | json => some format
  | format => some json
  | _ => none

/-- The flag that a flag needs beside it. -/
def partner? : Flag → Option Flag
  | base => some edited
  | edited => some base
  | _ => none

end Flag

/-- The paths as they are shown in messages. -/
def pathsShown : String := "<PATHS>..."

/-- What can be wrong with a command line. -/
inductive UsageError where
  | unexpected (argument : Text)
  | unexpectedValue (value : Text) (flag : Flag)
  | valueMissing (shown : String)
  | repeated (flag : Flag)
  | conflict (flag rival : Flag)
  | incomplete
deriving DecidableEq

/-- A fault in words. -/
def UsageError.message : UsageError → String
  | unexpected a => "unexpected argument '" ++ String.ofList a ++ "' found"
  | unexpectedValue v f => "unexpected value '" ++ String.ofList v ++ "' for '" ++ f.shown ++
    "' found; no more were expected"
  | valueMissing s => "a value is required for '" ++ s ++ "' but none was supplied"
  | repeated f => "the argument '" ++ f.shown ++ "' cannot be used multiple times"
  | conflict f r => "the argument '" ++ f.shown ++ "' cannot be used with '" ++ r.shown ++ "'"
  | incomplete => "the following required arguments were not provided:"

/-- Why a command line starts no run. -/
inductive Stop where
  | usage (e : UsageError)
  | help
  | version
deriving DecidableEq

/-- What was read last and is not taken down yet. -/
inductive Pending where
  | nothing
  | option (flag : Flag) (value : Option Text)
  | paths (ps : List Text)

/-- What has been read so far. -/
structure Reading where
  /-- The flags in order, each with its value if it takes one. -/
  given : List (Flag × Text) := []
  paths : List Text := []
  pending : Pending := .nothing
  /-- Whether all further arguments are paths. -/
  onlyPaths : Bool := false

namespace Reading

/-- Takes down a flag. -/
def record (s : Reading) (f : Flag) (value : Text) : Except Stop Reading :=
  if s.given.any (·.1 = f) then .error (.usage (.repeated f))
  else if f.takesPath && value.isEmpty then .error (.usage (.valueMissing f.shown))
  else .ok { s with given := s.given ++ [(f, value)], pending := .nothing }

/-- Takes down what was read last. -/
def settle (s : Reading) : Except Stop Reading :=
  match s.pending with
  | .nothing => .ok s
  | .option f none => .error (.usage (.valueMissing f.shown))
  | .option f (some v) => s.record f v
  | .paths ps =>
    if ps.any List.isEmpty then .error (.usage (.valueMissing pathsShown))
    else .ok { s with paths := s.paths ++ ps, pending := .nothing }

/-- Reads a flag without a value. -/
def flag (s : Reading) (f : Flag) : Except Stop Reading := do
  let s ← s.settle
  match f with
  | .help => .error .help
  | .version => .error .version
  | f => s.record f []

/-- Reads a flag by its name, with a value after an equals sign if there is one. -/
def named (s : Reading) (t : Text) : Except Stop Reading := do
  let name := t.takeWhile (· != '=')
  let value := match t.dropWhile (· != '=') with
    | [] => none
    | _ :: v => some v
  match Flag.ofName? name with
  | none => .error (.usage (.unexpected ('-' :: '-' :: name)))
  | some f =>
    match f.valueName?, value with
    | none, none => s.flag f
    | none, some v => .error (.usage (.unexpectedValue v f))
    | some _, none => return { ← s.settle with pending := .option f none }
    | some _, some v => (← s.settle).record f v

/-- Reads a flag by its letter. -/
def lettered (s : Reading) (c : Char) : Except Stop Reading :=
  match Flag.ofLetter? c with
  | none => .error (.usage (.unexpected ['-', c]))
  | some f => s.flag f

/-- Reads a path. -/
def path (s : Reading) (t : Text) : Except Stop Reading :=
  match s.pending with
  | .paths ps => .ok { s with pending := .paths (ps ++ [t]) }
  | _ => do return { ← s.settle with pending := .paths [t] }

/-- Reads an argument. -/
def step (s : Reading) (argument : Text) : Except Stop Reading :=
  if s.onlyPaths then s.path argument
  else
    match argument with
    | ['-', '-'] => .ok { s with onlyPaths := true }
    | '-' :: '-' :: name => s.named name
    | '-' :: c :: cs => (c :: cs).foldlM lettered s
    | value =>
      match s.pending with
      | .option f none => .ok { s with pending := .option f (some value) }
      | _ => s.path value

/-- The first given flag that cannot stand beside another one. -/
def conflict? (s : Reading) : Option UsageError :=
  s.given.findSome? fun (f, _) => do
    let rival ← f.rival?
    guard (s.given.any (·.1 = rival))
    return .conflict f rival

/-- Whether everything that is needed was given. -/
def isComplete (s : Reading) : Bool :=
  !s.paths.isEmpty && s.given.all fun (f, _) => f.partner?.all fun p => s.given.any (·.1 = p)

end Reading

/-- What a run is asked to do. -/
structure Options where
  paths : List Text
  /-- The base tree and the edited tree, if they do not stand next to the source. -/
  trees : Option (Text × Text) := none
  fix : Bool := false
  verbose : Bool := false
  json : Bool := false
  format : Option Text := none
  indent : Option Text := none
  lineEnding : Option Text := none
  config : Option Text := none
  noConfig : Bool := false

/-- What was read, as options. -/
def Reading.options (s : Reading) : Options :=
  let value (f : Flag) : Option Text := s.given.lookup f
  let has (f : Flag) : Bool := (value f).isSome
  { paths := s.paths
    trees := do return (← value .base, ← value .edited)
    fix := has .fix
    verbose := has .verbose
    json := has .json
    format := value .format
    indent := value .indent
    lineEnding := value .lineEnding
    config := value .config
    noConfig := has .noConfig }

/-- Reads a command line. -/
def Options.ofArguments (arguments : List Text) : Except Stop Options := do
  let s ← arguments.foldlM Reading.step {}
  let s ← s.settle
  match s.conflict? with
  | some e => .error (.usage e)
  | none => if s.isComplete then .ok s.options else .error (.usage .incomplete)

/-- A flag in the help text: its letter and name, and what it is for, in two columns. -/
def Flag.helpLine (f : Flag) : String :=
  let letter := match f.letter? with
    | some c => "-" ++ c.toString ++ ", "
    | none => "    "
  let left := letter ++ f.shown
  "  " ++ left ++ String.ofList (List.replicate (26 - left.length) ' ') ++ "  " ++ f.purpose

/-- The help text. -/
def helpLines : List String :=
  ["Regenerate transformed source code while keeping its layout", "", "Usage: relayout [OPTIONS] " ++ pathsShown, "",
    "Arguments:", "  " ++ pathsShown ++ "  Source files, edited tree files (*.edit.json) or directories to process", "",
    "Options:"] ++ Flag.all.map Flag.helpLine

end Reprint.Command
