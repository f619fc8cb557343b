import Reprint.Path
/-!
Files. What a run does to files goes through `FileSystem`, so that the same run can be followed on a `Disk`, a
file tree that is plain data.
-/

namespace Reprint

/-- Why a file cannot be read or written. -/
inductive FileError where
  | notFound
  | notDirectory
  | isDirectory
  | other (reason : String)
deriving DecidableEq

/-- A fault in words. -/
def FileError.message : FileError → String
  | notFound => "No such file or directory (os error 2)"
  | notDirectory => "Not a directory (os error 20)"
  | isDirectory => "Is a directory (os error 21)"
  | other reason => reason

/-- What a path leads to. -/
inductive FileKind where
  | file
  | directory
deriving DecidableEq

/-- Access to files by path. -/
class FileSystem (m : Type → Type) where
  /-- What a path leads to, if anything. -/
  kind? : Text → m (Option FileKind)
  read : Text → m (Except FileError Text)
  /-- Replaces the contents of a file. -/
  write : Text → Text → m (Except FileError Unit)
  /-- The paths of all files below a directory. -/
  filesUnder : Text → m (List Text)
  /-- The names that lead from the root to the working directory. -/
  workingDirectory : m (List Text)

/-! ### File trees -/

/-- A file or a directory. -/
inductive FileTree where
  | file (content : Text)
  | directory (entries : List (Text × FileTree))

namespace FileTree

/-- What some names lead to. -/
def at? (t : FileTree) (location : List Text) : Option FileTree :=
  match location, t with
  | [], t => some t
  | name :: rest, .directory entries => do (← entries.lookup name).at? rest
  | _ :: _, .file _ => none

/-- Exchanges an entry of a directory, or adds it at the end. -/
def setEntry (entries : List (Text × FileTree)) (name : Text) (t : FileTree) : List (Text × FileTree) :=
  match entries with
  | [] => [(name, t)]
  | (n, u) :: es => if n = name then (n, t) :: es else (n, u) :: setEntry es name t

/-- Puts a tree at a place. Directories on the way are made if they are missing. -/
def put (t : FileTree) (location : List Text) (new : FileTree) : FileTree :=
  match location with
  | [] => new
  | name :: rest =>
    let entries := match t with
      | .directory entries => entries
      | .file _ => []
    .directory (setEntry entries name (((entries.lookup name).getD (.directory [])).put rest new))

/-- The entry of a member is smaller than the list of entries. -/
theorem sizeOf_entry_lt {e : Text × FileTree} {es : List (Text × FileTree)} (h : e ∈ es) :
    sizeOf e.2 < sizeOf es := by
  have := List.sizeOf_lt_of_mem h
  obtain ⟨n, t⟩ := e
  simp only [Prod.mk.sizeOf_spec] at this
  simp only
  omega

/-- The paths of all files in a tree that stands at `path`. -/
def filesFrom (path : Text) (t : FileTree) : List Text :=
  match t with
  | .file _ => [path]
  | .directory entries => entries.attach.flatMap fun ⟨e, _⟩ => e.2.filesFrom (Path.join path e.1)
termination_by sizeOf t
decreasing_by
  simp only [FileTree.directory.sizeOf_spec]
  have := sizeOf_entry_lt ‹_›
  omega

end FileTree

/-- A file tree and the working directory in it. -/
structure Disk where
  root : FileTree
  here : List Text := []

namespace Disk

/-- Goes on from a place by one part of a path. -/
def step (d : Disk) (location : List Text) (part : Text) : Except FileError (List Text) :=
  match d.root.at? location with
  | some (.directory entries) =>
    if Path.isSkipped part then .ok location
    else if part = ['.', '.'] then .ok location.dropLast
    else if (entries.lookup part).isSome then .ok (location ++ [part])
    else .error .notFound
  | some (.file _) => .error .notDirectory
  | none => .error .notFound

/-- The place that a path leads to. -/
def resolve (d : Disk) (path : Text) : Except FileError (List Text) :=
  if path.isEmpty then .error .notFound
  else (path.splitOn '/').foldlM d.step (if path.head? = some '/' then [] else d.here)

/-- The tree that a path leads to. -/
def find (d : Disk) (path : Text) : Except FileError FileTree := do
  match d.root.at? (← d.resolve path) with
  | some t => return t
  | none => throw .notFound

/-- What a path leads to. -/
def kind? (d : Disk) (path : Text) : Option FileKind :=
  match d.find path with
  | .ok (.file _) => some .file
  | .ok (.directory _) => some .directory
  | .error _ => none

/-- The contents of a file. -/
def read (d : Disk) (path : Text) : Except FileError Text := do
  match ← d.find path with
  | .file content => return content
  | .directory _ => throw .isDirectory

/-- Replaces the contents of a file. -/
def write (d : Disk) (path content : Text) : Except FileError Disk := do
  let _ ← d.read path
  return { d with root := d.root.put (← d.resolve path) (.file content) }

/-- The paths of all files below a directory. -/
def filesUnder (d : Disk) (path : Text) : List Text :=
  match d.find path with
  | .ok t => t.filesFrom path
  | .error _ => []

end Disk

instance : FileSystem (StateM Disk) where
  kind? path := do return (← get).kind? path
  read path := do return (← get).read path
  write path content := do
    match (← get).write path content with
    | .ok d => set d; return .ok ()
    | .error e => return .error e
  filesUnder path := do return (← get).filesUnder path
  workingDirectory := do return (← get).here

end Reprint
