/-!
Text is a list of characters, and a place in it is an offset in UTF-8 bytes. Cutting never fails: an
offset inside a character counts as that character's start, one past the end as the end. Where the
difference matters, `isBoundary` tells such offsets apart and `slice?` refuses them.
-/

namespace Reprint

/-- A text, character by character. -/
abbrev Text := List Char

namespace Text

/-- The length of a text in UTF-8 bytes. -/
def size : Text → Nat
  | [] => 0
  | c :: t => c.utf8Size + size t

/-- The longest beginning of at most `n` bytes. -/
def before : Text → Nat → Text
  | [], _ => []
  | c :: t, n => if c.utf8Size ≤ n then c :: before t (n - c.utf8Size) else []

/-- What is left of a text after its longest beginning of at most `n` bytes. -/
def after : Text → Nat → Text
  | [], _ => []
  | c :: t, n => if c.utf8Size ≤ n then after t (n - c.utf8Size) else c :: t

/-- Whether an offset lies in the text and not inside a character. -/
def isBoundary : Text → Nat → Bool
  | [], n => n == 0
  | c :: t, n => n == 0 || (c.utf8Size ≤ n && isBoundary t (n - c.utf8Size))

/-- The part of a text between two boundaries. -/
def slice? (t : Text) (start stop : Nat) : Option Text :=
  if start ≤ stop ∧ t.isBoundary start ∧ t.isBoundary stop then some ((t.before stop).after start)
  else none

/-- The offset of the first character that satisfies `p`. -/
def find? (p : Char → Bool) : Text → Option Nat
  | [] => none
  | c :: t => if p c then some 0 else (find? p t).map (c.utf8Size + ·)

/-- The offset of the last character that satisfies `p`. -/
def findLast? (p : Char → Bool) : Text → Option Nat
  | [] => none
  | c :: t => match findLast? p t with
    | some n => some (c.utf8Size + n)
    | none => if p c then some 0 else none

/-- The parts of a text between occurrences of a character. There is always at least one. -/
def splitOn (t : Text) (sep : Char) : List Text :=
  match t with
  | [] => [[]]
  | c :: t => if c = sep then [] :: splitOn t sep else
    match splitOn t sep with
    | [] => [[c]]
    | l :: ls => (c :: l) :: ls

/-- The lines of a text, without their line feeds. -/
def lines (t : Text) : List Text := t.splitOn '\n'

/-- The text after the last line feed. -/
def lastLine (t : Text) : Text :=
  (t.reverse.takeWhile (· != '\n')).reverse

@[simp] theorem size_nil : size [] = 0 := rfl

@[simp] theorem size_cons (c : Char) (t : Text) : size (c :: t) = c.utf8Size + size t := rfl

@[simp] theorem size_append (s t : Text) : size (s ++ t) = size s + size t := by
  induction s with
  | nil => simp
  | cons c s ih => simp [ih, Nat.add_assoc]

theorem before_append_after (t : Text) (n : Nat) : t.before n ++ t.after n = t := by
  induction t generalizing n with
  | nil => rfl
  | cons c t ih =>
    by_cases h : c.utf8Size ≤ n
    · simp [before, after, h, ih]
    · simp [before, after, h]

/-- At a boundary, cutting takes exactly as many bytes as asked for. -/
theorem size_before_of_isBoundary {t : Text} {n : Nat} (h : t.isBoundary n) : size (t.before n) = n := by
  induction t generalizing n with
  | nil => simp [isBoundary] at h; simp [before, h]
  | cons c t ih =>
    simp only [isBoundary, Bool.or_eq_true, beq_iff_eq, Bool.and_eq_true, decide_eq_true_eq] at h
    rcases h with rfl | ⟨hc, h⟩
    · have : 0 < c.utf8Size := c.utf8Size_pos
      simp [before, Nat.not_le.mpr this]
    · have := ih h
      simp only [before, hc, if_true, size_cons, this]
      omega

theorem splitOn_ne_nil (t : Text) (sep : Char) : t.splitOn sep ≠ [] := by
  induction t with
  | nil => simp [splitOn]
  | cons c t ih =>
    simp only [splitOn]
    split
    · simp
    · split <;> simp

end Text

end Reprint
