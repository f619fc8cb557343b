import Reprint.Text.Basic
/-!
Blank characters, the Unicode property `White_Space`, and the trimming of texts at both ends.
-/

namespace Reprint

/-- Whether a character is blank: the 25 characters with the Unicode property `White_Space`. -/
def isBlank (c : Char) : Bool :=
  let n := c.toNat
  (0x9 ≤ n && n ≤ 0xd) || n == 0x20 || n == 0x85 || n == 0xa0 || n == 0x1680 ||
    (0x2000 ≤ n && n ≤ 0x200a) || n == 0x2028 || n == 0x2029 || n == 0x202f || n == 0x205f || n == 0x3000

namespace Text

/-- Whether every character of a text is blank. -/
def allBlank (t : Text) : Bool := t.all isBlank

/-- The blanks a text begins with. -/
def leadingBlanks (t : Text) : Text := t.takeWhile isBlank

/-- The blanks a text ends with. -/
def trailingBlanks (t : Text) : Text := (t.reverse.takeWhile isBlank).reverse

/-- A text without the blanks it begins with. -/
def trimStart (t : Text) : Text := t.dropWhile isBlank

/-- A text without the blanks it ends with. -/
def trimEnd (t : Text) : Text := (t.reverse.dropWhile isBlank).reverse

/-- A text without blanks at its ends. -/
def trim (t : Text) : Text := t.trimStart.trimEnd

theorem leadingBlanks_append_trimStart (t : Text) : t.leadingBlanks ++ t.trimStart = t :=
  List.takeWhile_append_dropWhile

theorem trimEnd_append_trailingBlanks (t : Text) : t.trimEnd ++ t.trailingBlanks = t := by
  rw [trimEnd, trailingBlanks, ← List.reverse_append, List.takeWhile_append_dropWhile, List.reverse_reverse]

theorem allBlank_leadingBlanks (t : Text) : t.leadingBlanks.allBlank = true := by
  simp only [allBlank, leadingBlanks, List.all_eq_true]
  intro c hc
  exact List.all_eq_true.mp (List.all_takeWhile) c hc

theorem allBlank_trailingBlanks (t : Text) : t.trailingBlanks.allBlank = true := by
  simp only [allBlank, trailingBlanks, List.all_reverse]
  exact List.all_takeWhile

end Text

end Reprint
