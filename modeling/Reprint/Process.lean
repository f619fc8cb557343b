import Reprint.Document.Build
import Reprint.Files
import Reprint.Regenerate
import Reprint.Report
/-!
One file at a time: a source, the tree a parser made of it and the tree it is to be changed to. By default the
trees stand next to the source, under its name and an ending.
-/

namespace Reprint

/-- The paths of the three files that belong together. -/
structure Job where
  source : Text
  base : Text
  edited : Text
deriving DecidableEq

namespace Job

/-- The ending of base trees. -/
def baseEnding : Text := ".orig.json".toList

/-- The ending of edited trees. -/
def editedEnding : Text := ".edit.json".toList

/-- The job of a source. -/
def ofSource (source : Text) : Job :=
  { source, base := source ++ baseEnding, edited := source ++ editedEnding }

/-- The job of an edited tree, none if its name is not that of a source with the ending. -/
def ofEdited? (path : Text) : Option Job := do
  let name ← Path.fileName? path
  guard (editedEnding.isSuffixOf name)
  let source := name.take (name.length - editedEnding.length)
  guard (!source.isEmpty)
  return ofSource (Path.withFileName path source)

/-- The job of a path, be it a source or an edited tree. -/
def ofPath (path : Text) : Job := (ofEdited? path).getD (ofSource path)

end Job

/-- Why a file could not be handled. -/
inductive ProcessError where
  | unreadable (path : Text) (e : FileError)
  | tree (path : Text) (e : DocumentError)
  | regeneration (path : Text) (e : RegenError)
  | edits (path : Text) (e : EditError)

/-- A fault in words. -/
def ProcessError.message : ProcessError → String
  | unreadable path e => "Failed to read file: " ++ String.ofList path ++ ": " ++ e.message
  | tree path e => "Failed to load tree " ++ String.ofList path ++ ": " ++ e.message
  | regeneration path e => "Failed to regenerate " ++ String.ofList path ++ ": " ++ e.message
  | edits path e => "Failed to apply edits to " ++ String.ofList path ++ ": " ++ e.message

/-- The style of a run. Without a line ending every file keeps its own. -/
structure RunStyle where
  indent : IndentStyle := .spaces 2
  lineEnding : Option LineEnding := none

/-- The style for a text. -/
def RunStyle.styleFor (s : RunStyle) (t : Text) : Style :=
  { indent := s.indent, lineEnding := s.lineEnding.getD (LineEnding.detect t) }

/-- What became of a file. -/
structure Processed where
  edits : List EditInfo
  warnings : List String
  old : Text
  /-- The new text, if there are edits. -/
  new : Option Text

/-- An edit with its place in a text. -/
def EditInfo.ofEdit (t : Text) (e : Edit) : EditInfo :=
  let (line, column) := t.lineColumn e.start
  let kind := "Regenerate ".toList
  { kind := if kind.isPrefixOf e.message.toList then String.ofList (e.message.toList.drop kind.length) else "unknown"
    line, column, message := e.message }

namespace Job

/-- Works on the contents of the three files. -/
def run (job : Job) (style : RunStyle) (source base edited : Text) : Except ProcessError Processed := do
  let src : Source := { name := String.ofList job.source, text := source }
  let baseTree ← (LoadedTree.ofBase src base).mapError (.tree job.base)
  let editedTree ← (LoadedTree.ofEdited src edited baseTree).mapError (.tree job.edited)
  let style := style.styleFor source
  let printer : Printer :=
    { units := .single { source := src, root := baseTree.root }, fallback := fun n => n.pretty style, style }
  let result ← (printer.regenerate editedTree.root).mapError (.regeneration job.source)
  let warnings := result.diagnostics.map (·.message)
  if result.edits.isEmpty then return { edits := [], warnings, old := source, new := none }
  let new ← (Edit.applyAll source result.edits).mapError (.edits job.source)
  return { edits := result.edits.map (EditInfo.ofEdit source), warnings, old := source, new := some new }

/-- Reads the three files and works on them. -/
def process {m : Type → Type} [Monad m] [FileSystem m] (job : Job) (style : RunStyle) :
    m (Except ProcessError Processed) := do
  match ← FileSystem.read job.source with
  | .error e => return .error (.unreadable job.source e)
  | .ok source =>
    match ← FileSystem.read job.base with
    | .error e => return .error (.unreadable job.base e)
    | .ok base =>
      match ← FileSystem.read job.edited with
      | .error e => return .error (.unreadable job.edited e)
      | .ok edited => return job.run style source base edited

end Job

end Reprint
