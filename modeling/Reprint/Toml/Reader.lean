import Reprint.Toml.Scalar
/-!
TOML line by line: headers of tables, headers of tables in an array, and keys with their values. How the lines
make up one table is not looked at here.
-/

namespace Reprint.Toml

/-- A value. -/
inductive Value where
  | string (s : String)
  | scalar (s : Scalar)
  | array (items : List Value)
  /-- A table in braces: pairs of a dotted key and a value. -/
  | inline (pairs : List (List String × Value))

/-- A line that says something. -/
inductive Line where
  | header (path : List String)
  | arrayHeader (path : List String)
  | pair (path : List String) (value : Value)

/-- Takes something from the front of a text. -/
abbrev Reader := StateT Text Option

namespace Reader

variable {α : Type}

/-- Takes one character that satisfies `p`. -/
def char (p : Char → Bool) : Reader Char := fun t =>
  match t with
  | c :: t => if p c then some (c, t) else none
  | [] => none

/-- Takes a given text. -/
def word (w : List Char) : Reader Unit := fun t =>
  if w.isPrefixOf t then some ((), t.drop w.length) else none

/-- Takes all characters in front that satisfy `p`. -/
def takeWhile (p : Char → Bool) : Reader Text := fun t => some (t.takeWhile p, t.dropWhile p)

/-- Takes something at most `n` times. -/
def upTo (n : Nat) (r : Reader α) : Reader (List α) :=
  match n with
  | 0 => pure []
  | n + 1 => (do let a ← r; let rest ← upTo n r; return a :: rest) <|> pure []

/-- Takes something as often as it goes. -/
def many (r : Reader α) : Reader (List α) := do upTo (← get).length r

/-- Takes items with separators between them. -/
def sepBy (item : Reader α) (sep : Reader Unit) : Reader (List α) :=
  (do let a ← item; let rest ← many (do sep; item); return a :: rest) <|> pure []

/-- Succeeds if a reader would fail. -/
def absent (r : Reader α) : Reader Unit := fun t => if (r t).isSome then none else some ((), t)

/-- Succeeds at the end of a text. -/
def finish : Reader Unit := fun t => if t.isEmpty then some ((), t) else none

/-! ### Blanks -/

/-- Spaces and tabs. -/
def blanks : Reader Unit := do let _ ← Reader.takeWhile fun c => c == ' ' || c == '\t'

/-- A line break. -/
def lineBreak : Reader Unit := word ['\n'] <|> word ['\r', '\n']

/-- Whether a character may stand in a comment or a string. -/
def isText (c : Char) : Bool := c == '\t' || (0x20 ≤ c.toNat && c.toNat ≠ 0x7f)

/-- A comment. -/
def comment : Reader Unit := do word ['#']; let _ ← Reader.takeWhile isText

/-- Blanks, line breaks and comments. -/
def space : Reader Unit := do
  blanks
  let _ ← many (do (comment >>= fun _ => lineBreak) <|> lineBreak; blanks)

/-! ### Strings -/

/-- A character given by its code in hexadecimal. -/
def code (length : Nat) : Reader Char := do
  let t ← upTo length (char fun c => (digit? 16 c).isSome)
  let ds ← (t.mapM (digit? 16) : Option (List Nat))
  guard (ds.length = length)
  let n := ofDigits 16 ds
  guard (n < 0xd800 ∨ (0xe000 ≤ n ∧ n < 0x110000))
  return Char.ofNat n

/-- What follows a backslash. -/
def escape : Reader Char := do
  match ← char fun _ => true with
  | '"' => return '"'
  | '\\' => return '\\'
  | 'b' => return '\x08'
  | 'f' => return '\x0c'
  | 'n' => return '\n'
  | 'r' => return '\r'
  | 't' => return '\t'
  | 'u' => code 4
  | 'U' => code 8
  | _ => failure

/-- A character of a string with escapes. -/
def basicChar : Reader Char :=
  char (fun c => isText c && c != '"' && c != '\\') <|> (word ['\\'] >>= fun _ => escape)

/-- A string between double quotes. -/
def basic : Reader Text := do
  word ['"']
  let t ← many basicChar
  word ['"']
  return t

/-- A string between single quotes, without escapes. -/
def literal : Reader Text := do
  word ['\'']
  let t ← Reader.takeWhile fun c => isText c && c != '\''
  word ['\'']
  return t

/-- One or two quotes that do not end a string of several lines. -/
def innerQuotes (q : Char) : Reader Text := do
  let t ← upTo 2 (char (· == q))
  guard (!t.isEmpty)
  absent (char (· == q))
  return t

/-- The end of a string of several lines. Up to two quotes before it belong to the string. -/
def closingQuotes (q : Char) : Reader Text := do
  let t ← upTo 5 (char (· == q))
  guard (3 ≤ t.length)
  return t.drop 3

/-- A line break inside a string. -/
def innerBreak : Reader Text := do lineBreak; return ['\n']

/-- A backslash at the end of a line, which joins it with what follows. -/
def continuation : Reader Text := do
  word ['\\']
  blanks
  lineBreak
  let _ ← many (lineBreak <|> (do let _ ← char fun c => c == ' ' || c == '\t'))
  return []

/-- A string of several lines between quotes. A line break right at the beginning does not count. -/
def multiline (q : Char) (piece : Reader Text) : Reader Text := do
  word [q, q, q]
  lineBreak <|> pure ()
  let body ← many (innerQuotes q <|> innerBreak <|> piece)
  return body.flatten ++ (← closingQuotes q)

/-- A string of any form. -/
def string : Reader Text :=
  multiline '"' (continuation <|> (do return [← basicChar])) <|>
  multiline '\'' (do return [← char fun c => isText c && c != '\'']) <|>
  basic <|> literal

/-! ### Keys and values -/

/-- How deep brackets may be nested, and how many parts a key may have. -/
def maxDepth : Nat := 79

/-- A key without dots. -/
def simpleKey : Reader String := do
  let t ← basic <|> literal <|> (do
    let t ← Reader.takeWhile fun c => c.isAlphanum || c == '_' || c == '-'
    guard (!t.isEmpty)
    return t)
  return String.ofList t

/-- A dotted key. -/
def key : Reader (List String) := do
  let ks ← sepBy simpleKey (do blanks; word ['.']; blanks)
  guard (!ks.isEmpty && ks.length ≤ maxDepth)
  return ks

/-- A scalar. A space may divide a date from a time. -/
def scalar : Reader Scalar := do
  let t ← Reader.takeWhile isScalarChar
  let more ← (do
    guard (isDay t)
    word [' ']
    let c ← char Char.isDigit
    return ' ' :: c :: (← Reader.takeWhile isScalarChar)) <|> pure []
  Scalar.read? (t ++ more)

/-- A key with a value. -/
def pairOf (value : Reader Value) : Reader (List String × Value) := do
  let path ← key
  blanks
  word ['=']
  blanks
  return (path, ← value)

/-- A list in brackets. It may go over several lines and end with a comma. -/
def arrayOf (value : Reader Value) : Reader Value := do
  word ['[']
  space
  let items ← sepBy value (do space; word [',']; space)
  space
  (do guard (!items.isEmpty); word [',']; space) <|> pure ()
  word [']']
  return .array items

/-- A table in braces, on one line. -/
def inlineOf (value : Reader Value) : Reader Value := do
  word ['\x7b']
  blanks
  let pairs ← sepBy (pairOf value) (do blanks; word [',']; blanks)
  blanks
  word ['\x7d']
  return .inline pairs

/-- A value with at most `depth` brackets around its parts. -/
def value (depth : Nat) : Reader Value :=
  match depth with
  | 0 => simple
  | depth + 1 => simple <|> arrayOf (value depth) <|> inlineOf (value depth)
where
  /-- A value without parts. -/
  simple : Reader Value :=
    (do return .string (String.ofList (← string))) <|> (do return .scalar (← scalar))

/-! ### Lines -/

/-- The header of a table. -/
def header : Reader Line := do
  word ['[']
  blanks
  let path ← key
  blanks
  word [']']
  return .header path

/-- The header of a table in an array. -/
def arrayHeader : Reader Line := do
  word ['[', '[']
  blanks
  let path ← key
  blanks
  word [']', ']']
  return .arrayHeader path

/-- A key with a value, as a line. -/
def pair : Reader Line := do
  let (path, v) ← pairOf (value maxDepth)
  return .pair path v

/-- A line, which may say nothing. -/
def line : Reader (Option Line) := do
  blanks
  let l ← (do return some (← arrayHeader <|> header <|> pair)) <|> pure none
  blanks
  comment <|> pure ()
  return l

/-- All lines of a text. A byte order mark in front does not count. -/
def document : Reader (List Line) := do
  word ['\ufeff'] <|> pure ()
  let ls ← sepBy line lineBreak
  finish
  return ls.filterMap id

end Reader

/-- The lines of a text. -/
def lines? (t : Text) : Option (List Line) := (Reader.document t).map (·.1)

end Reprint.Toml
