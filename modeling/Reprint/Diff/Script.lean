/-!
Differences between two lists. A script keeps, drops and adds items; what it keeps is a longest common
subsequence. Between kept items, items are dropped before others are added.
-/

namespace Reprint

/-- A step of a script. -/
inductive Change (α : Type) where
  | keep (a : α)
  | drop (a : α)
  | add (a : α)

namespace Diff

variable {α : Type} [BEq α]

/-- The lengths of longest common subsequences of `x :: xs` with `ys` and its ends, from those of `xs`. -/
def nextRow (x : α) : List α → List Nat → List Nat
  | [], row => row
  | y :: ys, row =>
    let rest := nextRow x ys row.tail
    let here := if x == y then row.tail.headD 0 + 1 else max (row.headD 0) (rest.headD 0)
    here :: rest

/-- The lengths of longest common subsequences of `xs` and its ends, a row for each, with `ys` and its
ends. -/
def table (xs ys : List α) : List (List Nat) :=
  match xs with
  | [] => [List.replicate (ys.length + 1) 0]
  | x :: xs =>
    let rows := table xs ys
    nextRow x ys (rows.headD []) :: rows

/-- A script that turns `xs` into `ys`, read off their table. An item is added if that costs nothing. -/
def trace (xs ys : List α) (rows : List (List Nat)) : List (Change α) :=
  let here := (rows.headD []).headD 0
  match xs, ys with
  | [], [] => []
  | [], y :: ys => .add y :: trace [] ys (rows.map List.tail)
  | x :: xs, [] => .drop x :: trace xs [] rows.tail
  | x :: xs, y :: ys =>
    if here == (rows.headD []).tail.headD 0 then .add y :: trace (x :: xs) ys (rows.map List.tail)
    else if here == (rows.tail.headD []).headD 0 then .drop x :: trace xs (y :: ys) rows.tail
    else .keep x :: trace xs ys (rows.tail.map List.tail)
termination_by xs.length + ys.length

/-- The items that two lists have in common at their beginning, and the two rests. -/
def commonStart : List α → List α → List α × List α × List α
  | x :: xs, y :: ys =>
    if x == y then
      let (same, xs, ys) := commonStart xs ys
      (x :: same, xs, ys)
    else ([], x :: xs, y :: ys)
  | xs, ys => ([], xs, ys)

/-- A script that turns one list into another. What they have in common at both ends is kept; the rest is
compared from its end. -/
def script (old new : List α) : List (Change α) :=
  let (start, old, new) := commonStart old new
  let (finish, old, new) := commonStart old.reverse new.reverse
  start.map .keep ++ (trace old new (table old new)).reverse ++ finish.reverse.map .keep

end Diff

end Reprint
