import Reprint.Diff.Script
import Reprint.Text.Basic
/-!
Differences between two texts, line by line: as plain changed lines, and as a patch with three lines of
context.
-/

namespace Reprint.Diff

/-! ### Changed lines -/

/-- A line without a carriage return at its end. -/
def withoutReturn (line : Text) : Text := if line.getLast? = some '\r' then line.dropLast else line

/-- The lines of a text without their line breaks. What follows the last line feed is a line only if it is
not empty. -/
def plainLines (t : Text) : List Text :=
  let parts := t.lines
  let ended := parts.dropLast.map withoutReturn
  match parts.getLast? with
  | some [] | none => ended
  | some last => ended ++ [last]

/-- Whether a text ends with a line feed. -/
def endsLine (t : Text) : Bool := t.getLast? == some '\n'

/-- The change of the line feed at the end, as an empty line. -/
def lastChange (old new : Text) : List (Change Text) :=
  match endsLine old, endsLine new with
  | true, true => [.keep []]
  | true, false => [.drop []]
  | false, true => [.add []]
  | false, false => []

/-- The changed lines of a text. -/
def lineChanges (old new : Text) : List (Change Text) :=
  script (plainLines old) (plainLines new) ++ lastChange old new

/-! ### Patches -/

/-- The lines of a text with their line breaks, which are a line feed, a carriage return, or both. -/
def wholeLines (t : Text) : List Text :=
  match t with
  | [] => []
  | '\r' :: '\n' :: t => ['\r', '\n'] :: wholeLines t
  | c :: t =>
    if c = '\n' ∨ c = '\r' then [c] :: wholeLines t
    else
      match wholeLines t with
      | [] => [[c]]
      | l :: ls => (c :: l) :: ls

/-- A run of lines that are all kept, or of lines that are all replaced. -/
inductive Block where
  | same (lines : List Text)
  | differ (old new : List Text)

namespace Block

/-- Adds a change in front of blocks. -/
def cons (c : Change Text) (bs : List Block) : List Block :=
  match c, bs with
  | .keep l, .same ls :: bs => .same (l :: ls) :: bs
  | .keep l, bs => .same [l] :: bs
  | .drop l, .differ old new :: bs => .differ (l :: old) new :: bs
  | .drop l, bs => .differ [l] [] :: bs
  | .add l, .differ old new :: bs => .differ old (l :: new) :: bs
  | .add l, bs => .differ [] [l] :: bs

/-- The blocks of a script. -/
def ofScript (cs : List (Change Text)) : List Block := cs.foldr cons []

/-- How many lines of the old text a block covers. -/
def oldLength : Block → Nat
  | same ls => ls.length
  | differ old _ => old.length

/-- How many lines of the new text a block covers. -/
def newLength : Block → Nat
  | same ls => ls.length
  | differ _ new => new.length

/-- Whether a block changes anything. -/
def isDiffer : Block → Bool
  | same _ => false
  | differ .. => true

end Block

/-- Changes that stand close together, with lines around them. -/
structure Hunk where
  oldStart : Nat
  newStart : Nat
  blocks : List Block

/-- How many lines are shown around changes. -/
def context : Nat := 3

/-- Divides blocks into hunks, wherever a run of kept lines is long enough to hide some of them. -/
def hunksFrom (h : Hunk) (old new : Nat) : List Block → List Hunk
  | [] => if h.blocks.any Block.isDiffer then [h] else []
  | b :: bs =>
    let old' := old + b.oldLength
    let new' := new + b.newLength
    match b with
    | .same ls =>
      if 2 * context < ls.length then
        { h with blocks := h.blocks ++ [.same (ls.take context)] } ::
          hunksFrom { oldStart := old' - context, newStart := new' - context,
                      blocks := [.same (ls.drop (ls.length - context))] } old' new' bs
      else hunksFrom { h with blocks := h.blocks ++ [b] } old' new' bs
    | .differ .. => hunksFrom { h with blocks := h.blocks ++ [b] } old' new' bs

/-- Shortens a run of kept lines at the end. -/
def trimLast (bs : List Block) : List Block :=
  match bs.getLast? with
  | some (.same ls) => bs.dropLast ++ [.same (ls.take context)]
  | _ => bs

/-- The hunks of a script. -/
def hunks (bs : List Block) : List Hunk :=
  match trimLast bs with
  | .same ls :: bs =>
    let hidden := ls.length - context
    hunksFrom { oldStart := hidden, newStart := hidden, blocks := [.same (ls.drop hidden)] } ls.length ls.length bs
  | bs => hunksFrom { oldStart := 0, newStart := 0, blocks := [] } 0 0 bs

/-- The range of a hunk. A single line goes without its count; an empty range begins at the line before. -/
def rangeText (start length : Nat) : String :=
  if length = 1 then toString (start + 1)
  else if length = 0 then s!"{start},0"
  else s!"{start + 1},{length}"

/-- A line of a hunk. One without a line break gets an empty line behind it. -/
def lineText (sign : Char) (line : Text) : Text :=
  let ended := line.getLast?.any fun c => c == '\n' || c == '\r'
  sign :: line ++ if ended then [] else ['\n', '\n']

/-- The lines of a block. -/
def Block.text : Block → Text
  | .same ls => ls.flatMap (lineText ' ')
  | .differ old new => old.flatMap (lineText '-') ++ new.flatMap (lineText '+')

/-- A hunk with its ranges. -/
def Hunk.text (h : Hunk) : Text :=
  let oldLength := h.blocks.foldl (fun n b => n + b.oldLength) 0
  let newLength := h.blocks.foldl (fun n b => n + b.newLength) 0
  ("@@ -" ++ rangeText h.oldStart oldLength ++ " +" ++ rangeText h.newStart newLength ++ " @@\n").toList ++
    h.blocks.flatMap Block.text

/-- The patch of a file. -/
def patch (path old new : Text) : Text :=
  "--- a/".toList ++ path ++ "\n+++ b/".toList ++ path ++ ['\n'] ++
    (hunks (Block.ofScript (script (wholeLines old) (wholeLines new)))).flatMap Hunk.text

end Reprint.Diff
