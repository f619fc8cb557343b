import Reprint.Toml.Reader
/-!
TOML as one table. Lines are entered one after the other; each table has an origin that says what may still
be added to it, and how.
-/

namespace Reprint.Toml

/-- How a table came about. -/
inductive Origin where
  /-- On the way to the table of a header. -/
  | passed
  /-- By a header of its own. -/
  | header
  /-- By a dotted key. -/
  | dotted
deriving DecidableEq

/-- What a key stands for. -/
inductive Item where
  | string (s : String)
  | scalar (s : Scalar)
  | array (items : List Item)
  /-- A table in braces, to which nothing can be added. -/
  | closed (entries : List (String × Item))
  | table (origin : Origin) (entries : List (String × Item))
  /-- Tables made by headers in double brackets, the last one first. -/
  | tables (elements : List (List (String × Item)))

/-- Keys and what they stand for. -/
abbrev Entries := List (String × Item)

namespace Entries

/-- Exchanges what a key stands for, or adds the key at the end. -/
def set (es : Entries) (key : String) (item : Item) : Entries :=
  match es with
  | [] => [(key, item)]
  | (k, i) :: es => if k = key then (k, item) :: es else (k, i) :: set es key item

/-- Changes the table that a path leads to. Tables on the way are made if they are missing. -/
def atPath? (es : Entries) (path : List String) (f : Entries → Option Entries) : Option Entries :=
  match path with
  | [] => f es
  | k :: path =>
    match es.lookup k with
    | none => do return set es k (.table .passed (← atPath? [] path f))
    | some (.table origin inner) => do return set es k (.table origin (← atPath? inner path f))
    | some (.tables (last :: others)) => do return set es k (.tables ((← atPath? last path f) :: others))
    | some _ => none

/-- Opens the table of a header. Only a table that was merely passed can be opened once more. -/
def openTable? (es : Entries) (key : String) : Option Entries :=
  match es.lookup key with
  | none => some (es.set key (.table .header []))
  | some (.table .passed inner) => some (es.set key (.table .header inner))
  | some _ => none

/-- Adds a table to an array of tables. -/
def addTable? (es : Entries) (key : String) : Option Entries :=
  match es.lookup key with
  | none => some (es.set key (.tables [[]]))
  | some (.tables others) => some (es.set key (.tables ([] :: others)))
  | some _ => none

/-- Enters a value under a dotted key. The tables of the dots must come from dotted keys too. -/
def addPair? (es : Entries) (path : List String) (item : Item) : Option Entries :=
  match path with
  | [] => none
  | [key] => if (es.lookup key).isNone then some (es.set key item) else none
  | k :: path =>
    let inside (dotted : Bool) (inner : Entries) : Option Entries :=
      -- A value may only be put into a table of the right origin.
      if path.length = 1 && !dotted then none else addPair? inner path item
    match es.lookup k with
    | none => do return es.set k (.table .dotted (← inside true []))
    | some (.table .dotted inner) => do return es.set k (.table .dotted (← inside true inner))
    | some (.table .passed inner) => do return es.set k (.table .passed (← inside false inner))
    | some (.tables (last :: others)) => do return es.set k (.tables ((← inside false last) :: others))
    | some _ => none

end Entries

/-- The entries of a table in braces. -/
def inlineEntries? (pairs : List (List String × Item)) : Option Entries :=
  pairs.foldlM (fun es (p : List String × Item) => es.addPair? p.1 p.2) []

/-- What a written value stands for, none if a table in braces has a key twice. -/
def Value.item? : Value → Option Item
  | .string s => some (.string s)
  | .scalar s => some (.scalar s)
  | .array items => do return .array (← items.attach.mapM fun ⟨v, _⟩ => v.item?)
  | .inline pairs => do
    let ps ← pairs.attach.mapM fun ⟨(path, v), _⟩ => do return (path, ← v.item?)
    return .closed (← inlineEntries? ps)
decreasing_by
  · simp only [Value.array.sizeOf_spec]; have := List.sizeOf_lt_of_mem ‹_›; omega
  · have := List.sizeOf_lt_of_mem ‹_›
    simp only [Value.inline.sizeOf_spec, Prod.mk.sizeOf_spec] at this ⊢
    omega

/-- A table that is being read, and the path of the header that was read last. -/
structure Progress where
  root : Entries := []
  current : List String := []

/-- Enters one line. -/
def Progress.add? (p : Progress) : Line → Option Progress
  | .header path => do
    let key ← path.getLast?
    return { root := ← p.root.atPath? path.dropLast fun es => es.openTable? key, current := path }
  | .arrayHeader path => do
    let key ← path.getLast?
    return { root := ← p.root.atPath? path.dropLast fun es => es.addTable? key, current := path }
  | .pair path v => do
    let item ← v.item?
    return { p with root := ← p.root.atPath? p.current fun es => es.addPair? path item }

/-- The table that a text describes. -/
def read? (t : Text) : Option Entries := do
  let p ← (← lines? t).foldlM Progress.add? {}
  return p.root

end Reprint.Toml
