import Reprint.Text.Basic
/-!
Paths as they are written. A path is read as components: an optional root, an optional leading dot, and names,
where empty parts and other dots do not count. Taking a path apart keeps what was written.
-/

namespace Reprint.Path

/-- A component of a path. -/
inductive Component where
  | root
  | here
  | up
  | name (t : Text)
deriving DecidableEq

/-- Whether a part of a path between slashes, not the first one, is no component. -/
def isSkipped (part : Text) : Bool := part.isEmpty || part == ['.']

/-- A part as a component. -/
def component (part : Text) : Component := if part = ['.', '.'] then .up else .name part

/-- The component of the first part. -/
def firstComponent (part : Text) (isOnly : Bool) : List Component :=
  if part.isEmpty then (if isOnly then [] else [.root])
  else if part = ['.'] then [.here]
  else [component part]

/-- The components of a path. -/
def components (path : Text) : List Component :=
  match path.splitOn '/' with
  | [] => []
  | first :: rest => firstComponent first rest.isEmpty ++ (rest.filter (!isSkipped ·)).map component

namespace Component

/-- Components are ordered: the root, a dot, two dots, names by their characters. -/
def rank : Component → Nat
  | root => 0
  | here => 1
  | up => 2
  | name _ => 3

/-- Whether a component comes before another. -/
def lt : Component → Component → Bool
  | name s, name t => decide (s < t)
  | a, b => decide (a.rank < b.rank)

end Component

/-- Whether a path comes before another or has the same components. -/
def le (a b : Text) : Bool := go (components a) (components b)
where
  /-- The order of lists of components. -/
  go : List Component → List Component → Bool
    | [], _ => true
    | _ :: _, [] => false
    | a :: as, b :: bs => if a.lt b then true else if b.lt a then false else go as bs

/-- The last component, if it is a name. -/
def fileName? (path : Text) : Option Text :=
  match (components path).getLast? with
  | some (.name t) => some t
  | _ => none

/-- Leaves out parts at the end that are no components. The first part always counts. -/
def trimParts : List Text → List Text
  | [] => []
  | first :: rest => first :: (rest.reverse.dropWhile isSkipped).reverse

/-- A path from its parts. -/
def ofParts : List Text → Text
  | [[]] => ['/']
  | parts => List.intercalate ['/'] parts

/-- What stands before the last component. -/
def parent (path : Text) : Text :=
  ofParts (trimParts (trimParts (path.splitOn '/')).dropLast)

/-- A path continued by a name. -/
def join (path name : Text) : Text :=
  if path.isEmpty || path.getLast? = some '/' then path ++ name else path ++ '/' :: name

/-- A path with its last name exchanged. -/
def withFileName (path name : Text) : Text := join (parent path) name

end Reprint.Path
