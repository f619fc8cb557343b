import Reprint.Text.Basic
import Reprint.Text.Printable
/-!
Quoted literals. A character that would be misread inside the quotes is written as an escape: five have
names, the quote itself is preceded by a backslash, and what cannot be shown is given by its code.
-/

namespace Reprint.Quoted

/-- The letter that names a character in an escape. -/
def shortName? : Char → Option Char
  | '\x00' => some '0'
  | '\t' => some 't'
  | '\r' => some 'r'
  | '\n' => some 'n'
  | '\\' => some '\\'
  | _ => none

/-- The code of a character in hexadecimal, as an escape. -/
def codeEscape (c : Char) : Text :=
  ['\\', 'u', '{'] ++ Nat.toDigits 16 c.toNat ++ ['}']

/-- How a character is written between two `quote`s. -/
def escape (quote c : Char) : Text :=
  match shortName? c with
  | some n => ['\\', n]
  | none =>
    if c = quote then ['\\', c]
    else if isPrintable c then [c]
    else codeEscape c

/-- A text between two `quote`s. -/
def enclose (quote : Char) (t : Text) : Text :=
  quote :: t.flatMap (escape quote) ++ [quote]

/-- A character literal. -/
def char (c : Char) : Text := enclose '\'' [c]

/-- A string literal. -/
def string (s : String) : Text := enclose '"' s.toList

end Reprint.Quoted
