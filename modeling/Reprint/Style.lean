import Reprint.Text.Blank
/-!
Style of printed code: how it is indented and how its lines end.
-/

namespace Reprint

/-- What one level of indentation is made of. -/
inductive IndentStyle where
  | spaces (width : Nat)
  | tabs
deriving DecidableEq

/-- How lines end. -/
inductive LineEnding where
  | lf
  | crlf
deriving DecidableEq

/-- The style of printed code. -/
structure Style where
  indent : IndentStyle := .spaces 2
  lineEnding : LineEnding := .lf
deriving DecidableEq

/-- The greatest natural number of 64 bits. -/
def maxNatural : Nat := 0xffffffffffffffff

/-- Reads a natural number of at most 64 bits. A plus sign may stand in front. -/
def natural? (t : Text) : Option Nat :=
  let digits := match t with
    | '+' :: t => t
    | t => t
  if digits.isEmpty || !digits.all Char.isDigit then none
  else
    let n := digits.foldl (fun n c => n * 10 + (c.toNat - '0'.toNat)) 0
    if n ≤ maxNatural then some n else none

namespace IndentStyle

/-- One level of indentation. -/
def unit : IndentStyle → Text
  | spaces n => List.replicate n ' '
  | tabs => ['\t']

/-- Some levels of indentation. -/
def atDepth (s : IndentStyle) (depth : Nat) : Text := (List.replicate depth s.unit).flatten

/-- Reads a setting: a word for tabs, a run of spaces, or the number of spaces. -/
def ofText? (t : Text) : Option IndentStyle :=
  if t = "tab".toList ∨ t = "tabs".toList ∨ t = ['\t'] ∨ t = ['\\', 't'] then some tabs
  else if !t.isEmpty && t.all (· == ' ') then some (spaces t.length)
  else (natural? t.trim).map spaces

end IndentStyle

namespace LineEnding

/-- A line ending as it stands in a text. -/
def text : LineEnding → Text
  | lf => ['\n']
  | crlf => ['\r', '\n']

/-- The name of a line ending. -/
def name : LineEnding → String
  | lf => "lf"
  | crlf => "crlf"

/-- Reads a setting: a name in any case, the characters themselves, or their escapes. -/
def ofText? (t : Text) : Option LineEnding :=
  let t := t.map Char.toLower
  if t = "lf".toList ∨ t = ['\n'] ∨ t = ['\\', 'n'] then some lf
  else if t = "crlf".toList ∨ t = ['\r', '\n'] ∨ t = ['\\', 'r', '\\', 'n'] then some crlf
  else none

/-- Whether a line feed follows a carriage return somewhere. -/
def hasPair : Text → Bool
  | '\r' :: '\n' :: _ => true
  | _ :: t => hasPair t
  | [] => false

/-- The line ending that a text uses. -/
def detect (t : Text) : LineEnding := if hasPair t then crlf else lf

end LineEnding

end Reprint
