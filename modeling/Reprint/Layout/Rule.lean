import Reprint.Layout.Comment
import Reprint.Text.Word
/-!
Where a gap between two siblings is divided. Each rule looks for a mark, a keyword or a piece of punctuation,
and divides the gap at the first place where it stands. Rules are tried in order. They see the gap with its
comments blanked out, so that nothing inside a comment decides.
-/

namespace Reprint.Gap

/-- How strongly a mark speaks for its place. -/
inductive Tier where
  | primary
  | secondary
  | last
deriving DecidableEq

/-- A mark, looked for between the character before and the text ahead: how many bytes of the text ahead
belong to the left side. -/
abbrev Mark := Option Char → Text → Option Nat

/-- Where the left side ends at the first place with a mark, counted from `offset`. -/
def Mark.firstFrom (mark : Mark) (before : Option Char) (offset : Nat) (t : Text) : Option Nat :=
  match mark before t with
  | some n => some (offset + n)
  | none =>
    match t with
    | [] => none
    | c :: t => mark.firstFrom (some c) (offset + c.utf8Size) t

/-- Where the left side ends at the first place with a mark. -/
def Mark.first? (mark : Mark) (t : Text) : Option Nat := mark.firstFrom none 0 t

namespace Mark

/-- A whole word. It belongs to the right side. -/
def word (w : List Char) : Mark := fun before t =>
  if !before.any isWordChar && w.isPrefixOf t && endsWord (t.drop w.length) then some 0 else none

/-- The word `match` after a blank, which belongs to the left side. -/
def matchWord : Mark
  | _, c :: t => if isBlank c && "match".toList.isPrefixOf t && endsWord (t.drop 5) then some c.utf8Size else none
  | _, [] => none

/-- Punctuation that belongs to the right side. -/
def ahead (w : List Char) : Mark := fun _ t => if w.isPrefixOf t then some 0 else none

/-- Punctuation that belongs to the left side. -/
def behind (w : List Char) : Mark := fun _ t => if w.isPrefixOf t then some (Text.size w) else none

/-- Punctuation that belongs to the left side together with the blanks behind it. -/
def spaced (w : List Char) : Mark := fun _ t =>
  if w.isPrefixOf t then some (Text.size w + Text.size (Text.leadingBlanks (t.drop w.length))) else none

/-- A pair of parentheses with nothing in it, which belongs to the left side together with the blanks
behind it. -/
def emptyParens : Mark
  | _, '(' :: t =>
    match spaced [')'] none (Text.trimStart t) with
    | some n => some (1 + Text.size (Text.leadingBlanks t) + n)
    | none => none
  | _, _ => none

/-- What follows a line break. -/
def afterLineBreak? : Text → Option Text
  | '\n' :: t => some t
  | '\r' :: '\n' :: t => some t
  | _ => none

/-- A line break. It belongs to the right side. -/
def lineBreak : Mark := fun _ t => if (afterLineBreak? t).isSome then some 0 else none

/-- A line break before a line that begins with the word `import`. -/
def importLine : Mark := fun _ t =>
  match afterLineBreak? t with
  | some t =>
    let t := t.dropWhile fun c => c == ' ' || c == '\t'
    if "import".toList.isPrefixOf t && endsWord (t.drop 6) then some 0 else none
  | none => none

end Mark

/-- A rule for dividing gaps. -/
structure Rule where
  name : String
  tier : Tier
  mark : Mark
  /-- Whether comments can be seen. -/
  seesComments : Bool := false
  /-- Whether a place found in a gap is taken. -/
  accepts : Text → Nat → Bool := fun _ _ => true

namespace Rule

/-- The rules in the order in which they are tried. A block comment divides only a gap without any code,
and a colon does not divide behind an annotation. -/
def all : List Rule :=
  [{ name := "else", tier := .primary, mark := .word "else".toList },
   { name := "match", tier := .primary, mark := .matchWord },
   { name := "comment_start", tier := .primary, mark := .ahead ['/', '*'], seesComments := true,
     accepts := fun t _ => (masked t).allBlank },
   { name := "class", tier := .primary, mark := .word "class".toList },
   { name := "colon", tier := .primary, mark := .spaced [':'],
     accepts := fun t index => !((masked t).before index).contains '@' },
   { name := "empty_parens", tier := .primary, mark := .emptyParens },
   { name := "opening_paren", tier := .primary, mark := .behind ['('] },
   { name := "arrow", tier := .primary, mark := .spaced ['=', '>'] },
   { name := "closing_paren", tier := .secondary, mark := .behind [')'] },
   { name := "equals", tier := .secondary, mark := .ahead ['='] },
   { name := "import", tier := .secondary, mark := .importLine },
   { name := "newline", tier := .secondary, mark := .lineBreak },
   { name := "comma", tier := .secondary, mark := .ahead [','] },
   { name := "dot", tier := .last, mark := .ahead ['.'] }]

/-- Where a rule divides a gap. -/
def index? (r : Rule) (t : Text) : Option Nat := do
  let index ← r.mark.first? (if r.seesComments then t else masked t)
  if r.accepts t index then some index else none

/-- The first rule that divides a gap, and where. -/
def find? (t : Text) : Option (Rule × Nat) :=
  all.findSome? fun r => (r.index? t).map fun i => (r, i)

end Rule

end Reprint.Gap
