import Reprint.Command.Options
import Reprint.Process
import Reprint.Settings
/-!
A run of the command line: read the settings, find the files, work on all of them, then report on each in the order
of paths and write it back if that was asked for.
-/

namespace Reprint.Command

/-- Why a run ends early. -/
inductive CommandError where
  | unreadable (path : Text) (e : FileError)
  | malformed (path : Text)
  | setting (e : SettingError)
  | oneSource
  | unwritable (path : Text) (e : FileError)

/-- A fault in words. -/
def CommandError.message : CommandError → String
  | unreadable path e => "Failed to read " ++ String.ofList path ++ ": " ++ e.message
  | malformed path => "Failed to parse " ++ String.ofList path ++ ":"
  | setting e => e.message
  | oneSource => "--original and --edited take exactly one source file"
  | unwritable path e => "Failed to write file: " ++ String.ofList path ++ ": " ++ e.message

/-- What a run leaves behind, besides files. -/
structure Outcome where
  exit : Nat
  out : Text := []
  err : List Text := []

/-! ### Settings -/

/-- The name of settings files. -/
def settingsName : Text := ".relayout.toml".toList

/-- The places of a settings file for a working directory: in it, or in one of those around it. -/
def settingsPaths (directory : List Text) : List Text :=
  (List.range (directory.length + 1)).reverse.map fun n =>
    Path.join ('/' :: List.intercalate ['/'] (directory.take n)) settingsName

/-- The format of the report. The command line counts before the settings. -/
def formatFor (o : Options) (s : Settings) : Except SettingError OutputFormat :=
  if o.json then .ok .json
  else
    let name := (o.format.or (s.format.map String.toList)).getD "text".toList
    match OutputFormat.ofText? name with
    | some format => .ok format
    | none => .error (.format (String.ofList name))

/-- The style of printed code. -/
def styleFor (o : Options) (s : Settings) : Except SettingError RunStyle := do
  let indent ← s.indentStyle (o.indent.map String.ofList)
  let lineEnding ← s.lineEnding? (o.lineEnding.map String.ofList)
  return { indent, lineEnding }

section Files

variable {m : Type → Type} [Monad m] [FileSystem m]

/-- Reads a settings file. -/
def loadSettings (path : Text) : m (Except CommandError Settings) := do
  match ← FileSystem.read path with
  | .error e => return .error (.unreadable path e)
  | .ok t =>
    match Settings.read? t with
    | some s => return .ok s
    | none => return .error (.malformed path)

/-- The first path that leads somewhere. -/
def firstPresent : List Text → m (Option Text)
  | [] => return none
  | p :: ps => do
    if (← FileSystem.kind? p).isSome then return some p
    firstPresent ps

/-- The settings of a run. -/
def settingsFor (o : Options) : m (Except CommandError Settings) := do
  if o.noConfig then return .ok {}
  match o.config with
  | some path => loadSettings path
  | none =>
    match ← firstPresent (settingsPaths (← FileSystem.workingDirectory)) with
    | some path => loadSettings path
    | none => return .ok {}

/-! ### Jobs -/

/-- The jobs of a path: the one of a file, those of all edited trees below a directory. A path that leads nowhere has
no answer. -/
def jobsOf (s : Settings) (path : Text) : m (Option (List Job)) := do
  match ← FileSystem.kind? path with
  | none => return none
  | some .file => return some [Job.ofPath path]
  | some .directory =>
    return some (((← FileSystem.filesUnder path).filterMap Job.ofEdited?).filter (!s.excludes ·.source))

/-- The jobs of all paths, and the paths that lead nowhere. -/
def jobsOfAll (s : Settings) : List Text → m (List Job × List Text)
  | [] => return ([], [])
  | p :: ps => do
    let found ← jobsOf s p
    let (jobs, missing) ← jobsOfAll s ps
    match found with
    | some js => return (js ++ jobs, missing)
    | none => return (jobs, p :: missing)

/-- What a run works on. -/
def jobsFor (o : Options) (s : Settings) : m (Except CommandError (List Job × List Text)) := do
  match o.trees with
  | none => return .ok (← jobsOfAll s o.paths)
  | some (base, edited) =>
    match o.paths with
    | [source] => return .ok ([{ source, base, edited }], [])
    | _ => return .error .oneSource

/-- Works on a list of jobs. -/
def processAll (style : RunStyle) : List Job → m (List (Job × Except ProcessError Processed))
  | [] => return []
  | j :: js => do
    let result ← j.process style
    return (j, result) :: (← processAll style js)

/-! ### Reports -/

/-- Reports on a job. With `fix` the new text is written first. -/
def reportOn (fix : Bool) (r : Report) (path : Text) (result : Except ProcessError Processed) :
    m (Except CommandError Report) := do
  match result with
  | .error e => return .ok (r.fail path e.message)
  | .ok p =>
    match p.new with
    | none => return .ok (r.skip path p.warnings)
    | some new =>
      if fix then
        match ← FileSystem.write path new with
        | .error e => return .error (.unwritable path e)
        | .ok () => return .ok (r.fix path p.edits p.warnings)
      else return .ok (r.check path p.edits p.warnings p.old new)

/-- Reports on jobs in turn. A file that cannot be written ends the run. -/
def reportAll (fix : Bool) (r : Report) :
    List (Job × Except ProcessError Processed) → m (Report × Option CommandError)
  | [] => return (r, none)
  | (job, result) :: rest => do
    match ← reportOn fix r job.source result with
    | .error e => return (r, some e)
    | .ok r => reportAll fix r rest

/-- The lines that a talkative run starts with. -/
def header (o : Options) (style : RunStyle) : List String :=
  let indent := match style.indent with
    | .spaces n => "Spaces(" ++ toString n ++ ")"
    | .tabs => "Tabs"
  ["Mode: " ++ (if o.fix then "fix" else "check"), "Indent: " ++ indent, ""]

/-- How a run ends: 1 with faults, 2 if changes were found and not written, else 0. -/
def exitCode (fix : Bool) (s : Summary) : Nat :=
  if 0 < s.errors then 1 else if !fix && 0 < s.changed then 2 else 0

/-- The end of a run that fails. -/
def failed (r : Report) (e : CommandError) : Outcome :=
  let r := r.complain ("Error: " ++ e.message).toList
  { exit := 1, out := r.out, err := r.err }

/-- A run with settings. -/
def runWith (o : Options) (s : Settings) (format : OutputFormat) (style : RunStyle) : m Outcome := do
  let r : Report := { format, verbose := o.verbose }
  let r := if o.verbose && format = .text then r.printLines ((header o style).map String.toList) else r
  match ← jobsFor o s with
  | .error e => return failed r e
  | .ok (jobs, missing) =>
    let results ← processAll style jobs
    let r := if format = .text then
        missing.foldl (fun r p => r.complain ("Warning: Path does not exist: ".toList ++ p)) r
      else r
    match ← reportAll o.fix r (results.mergeSort fun a b => Path.le a.1.source b.1.source) with
    | (r, some e) => return failed r e
    | (r, none) =>
      let done := r.finish (!o.fix)
      return { exit := exitCode o.fix r.summary, out := done.out, err := done.err }

/-- A run with options. -/
def runOptions (o : Options) : m Outcome := do
  match ← settingsFor o with
  | .error e => return failed {} e
  | .ok s =>
    match formatFor o s with
    | .error e => return failed {} (.setting e)
    | .ok format =>
      match styleFor o s with
      | .error e => return failed {} (.setting e)
      | .ok style => runWith o s format style

/-- A run of the command line. -/
def run (arguments : List Text) : m Outcome := do
  match Options.ofArguments arguments with
  | .ok o => runOptions o
  | .error .help => return { exit := 0, out := ("\n".intercalate helpLines).toList ++ ['\n'] }
  | .error .version => return { exit := 0, out := ("relayout " ++ version ++ "\n").toList }
  | .error (.usage e) => return { exit := 2, err := [("error: " ++ e.message).toList] }

end Files

end Reprint.Command
