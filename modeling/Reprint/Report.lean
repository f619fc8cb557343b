import Reprint.Diff.Lines
import Reprint.Json.Render
/-!
Reports on a run: what is printed for each file and at the end, as text, as JSON or as a patch.
-/

namespace Reprint

/-- The form of a report. -/
inductive OutputFormat where
  | text
  | json
  | diff
deriving DecidableEq

/-- Reads the name of a format, in any case. -/
def OutputFormat.ofText? (t : Text) : Option OutputFormat :=
  let t := t.map Char.toLower
  if t = "text".toList then some .text
  else if t = "json".toList then some .json
  else if t = "diff".toList then some .diff
  else none

/-- A printed region, by the kind of its top node and its place in the text. -/
structure EditInfo where
  kind : String
  line : Nat
  column : Nat
  message : String
deriving DecidableEq

/-- What happened to a file. -/
structure FileReport where
  path : Text
  edits : List EditInfo := []
  warnings : List String := []
  error : Option String := none
deriving DecidableEq

/-- Numbers for a whole run. -/
structure Summary where
  files : Nat := 0
  changed : Nat := 0
  edits : Nat := 0
  warnings : Nat := 0
  errors : Nat := 0
deriving DecidableEq

/-- The version that reports carry. -/
def version : String := "0.1.0"

namespace EditInfo

/-- An edit as JSON. -/
def toJson (e : EditInfo) : Json :=
  .object [("kind", .string e.kind), ("line", .number (.int e.line)), ("column", .number (.int e.column)),
    ("message", .string e.message)]

end EditInfo

namespace FileReport

/-- A file as JSON. Empty lists are left out. -/
def toJson (f : FileReport) : Json :=
  .object ([("path", Json.string (String.ofList f.path))] ++
    (if f.edits.isEmpty then [] else [("edits", .array (f.edits.map EditInfo.toJson))]) ++
    (if f.warnings.isEmpty then [] else [("warnings", .array (f.warnings.map Json.string))]) ++
    (f.error.map fun e => ("error", Json.string e)).toList)

end FileReport

namespace Summary

/-- The numbers with one more file. -/
def add (s : Summary) (f : FileReport) : Summary :=
  { files := s.files + 1
    changed := s.changed + if f.edits.isEmpty then 0 else 1
    edits := s.edits + f.edits.length
    warnings := s.warnings + f.warnings.length
    errors := s.errors + if f.error.isSome then 1 else 0 }

/-- The numbers as JSON. -/
def toJson (s : Summary) : Json :=
  let number (n : Nat) : Json := .number (.int n)
  .object [("files_processed", number s.files), ("files_with_changes", number s.changed),
    ("total_edits", number s.edits), ("warnings", number s.warnings), ("errors", number s.errors)]

/-- The numbers as lines of text. -/
def lines (s : Summary) : List String :=
  ["Summary", s!"  Files processed: {s.files}", s!"  Files with changes: {s.changed}", s!"  Total edits: {s.edits}"] ++
    (if 0 < s.warnings then [s!"  Warnings: {s.warnings}"] else []) ++
    (if 0 < s.errors then [s!"  Errors: {s.errors}"] else [])

end Summary

/-- What has been reported so far, and what was printed on the way. -/
structure Report where
  format : OutputFormat := .text
  verbose : Bool := false
  files : List FileReport := []
  summary : Summary := {}
  out : Text := []
  err : List Text := []

namespace Report

/-- Takes down a file. -/
def add (r : Report) (f : FileReport) : Report :=
  { r with files := r.files ++ [f], summary := r.summary.add f }

/-- Prints text. -/
def print (r : Report) (t : Text) : Report := { r with out := r.out ++ t }

/-- Prints a line. -/
def printLine (r : Report) (line : Text) : Report := r.print (line ++ ['\n'])

/-- Prints a line on the error channel. -/
def complain (r : Report) (line : Text) : Report := { r with err := r.err ++ [line] }

/-- Prints lines. -/
def printLines (r : Report) (lines : List Text) : Report := lines.foldl printLine r

/-- The changed lines of a file. -/
def diffLines (old new : Text) : List Text :=
  (Diff.lineChanges old new).filterMap fun
    | .keep _ => none
    | .drop l => some ("  - ".toList ++ l)
    | .add l => some ("  + ".toList ++ l)

/-- Warnings as lines. -/
def warningLines (warnings : List String) : List Text := warnings.map fun w => "  ! ".toList ++ w.toList

/-- An edit as a line. -/
def editLine (e : EditInfo) : Text :=
  ("  -> " ++ toString e.line ++ ":" ++ toString e.column ++ " " ++ e.message).toList

/-- Reports a file that would change. -/
def check (r : Report) (path : Text) (edits : List EditInfo) (warnings : List String) (old new : Text) : Report :=
  let r := match r.format with
    | .text =>
      r.printLines ([path] ++ diffLines old new ++ [[]] ++ edits.map editLine ++ warningLines warnings ++ [[]])
    | .diff => r.print (Diff.patch path old new)
    | .json => r
  r.add { path, edits, warnings }

/-- Reports a file that was changed. -/
def fix (r : Report) (path : Text) (edits : List EditInfo) (warnings : List String) : Report :=
  let r := match r.format with
    | .text =>
      let applied := s!"  OK Applied {edits.length} change(s)"
      r.printLines ([path, applied.toList] ++ warningLines warnings ++ [[]])
    | _ => r
  r.add { path, edits, warnings }

/-- Reports a file without changes. -/
def skip (r : Report) (path : Text) (warnings : List String) : Report :=
  let r := if r.verbose && r.format = .text then r.printLine (path ++ ": No changes needed".toList) else r
  r.add { path, warnings }

/-- Reports a file that could not be handled. -/
def fail (r : Report) (path : Text) (error : String) : Report :=
  let r := if r.format = .text then r.complain ("Error: ".toList ++ path ++ " - ".toList ++ error.toList) else r
  r.add { path, error := some error }

/-- The whole run as JSON. -/
def toJson (r : Report) : Json :=
  .object [("version", .string version), ("summary", r.summary.toJson), ("files", .array (r.files.map FileReport.toJson))]

/-- Prints the end of a report. -/
def finish (r : Report) (checking : Bool) : Report :=
  match r.format with
  | .text =>
    let hint := if checking && 0 < r.summary.edits then ["", "Run with --fix to apply changes"] else []
    r.printLines (([""] ++ r.summary.lines ++ hint).map String.toList)
  | .json => r.printLine (r.toJson.renderPretty 0)
  | .diff => r

end Report

end Reprint
