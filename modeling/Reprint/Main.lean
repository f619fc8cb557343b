import Reprint.Command.Run
/-!
The program: the command line over the files of the machine.
-/

namespace Reprint

/-- A fault of the machine as a fault of a file. -/
def FileError.ofIO : IO.Error → FileError
  | .noFileOrDirectory .. => .notFound
  | .inappropriateType _ 20 _ => .notDirectory
  | .inappropriateType _ 21 _ => .isDirectory
  | .userError _ => .other "stream did not contain valid UTF-8"
  | e => .other (toString e)

/-- What an action gives, or its fault. -/
def attempt {α : Type} (act : IO α) : IO (Except FileError α) := do
  try return .ok (← act) catch e => return .error (.ofIO e)

/-- The paths of all files below a directory. -/
partial def filesBelow (path : Text) : IO (List Text) := do
  let place := (← IO.currentDir) / String.ofList path
  if !(← place.isDir) then return [path]
  let entries ← place.readDir
  return (← entries.toList.mapM fun e => filesBelow (Path.join path e.fileName.toList)).flatten

instance : FileSystem IO where
  kind? path := do
    if path.isEmpty then return none
    let place := (← IO.currentDir) / String.ofList path
    if ← place.isDir then return some .directory
    if ← place.pathExists then return some .file
    return none
  read path := attempt (IO.FS.readFile (String.ofList path)) >>= fun r => return r.map String.toList
  write path content := attempt (IO.FS.writeFile (String.ofList path) (String.ofList content))
  filesUnder := filesBelow
  workingDirectory := do return (((← IO.currentDir).toString.toList).splitOn '/').filter (!·.isEmpty)

end Reprint

/-- Runs the command line and tells the machine how the run ended. -/
def main (arguments : List String) : IO UInt32 := do
  let outcome ← Reprint.Command.run (arguments.map String.toList)
  IO.print (String.ofList outcome.out)
  for line in outcome.err do
    IO.eprintln (String.ofList line)
  return outcome.exit.toUInt32
