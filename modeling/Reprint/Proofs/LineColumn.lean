import Mathlib
import Reprint.Proofs.Marks
/-!
Lines and columns of offsets. At an offset between two characters, the characters ahead of it have been counted one by one,
and each of them moves the place on: to the next column, or to the next line. Main statement: `lineColumn_exact`.
-/

namespace Reprint.Text

/-! ### One character after the other -/

theorem lineColumnFrom_append (place : Nat × Nat) (a b : Text) :
    lineColumnFrom place (a ++ b) (size a) = a.foldl advance place := by
  induction a generalizing place with
  | nil => cases b <;> rfl
  | cons c a ih =>
    have hpos : ¬size (c :: a) = 0 := mt size_eq_zero_iff.mp (List.cons_ne_nil c a)
    rw [List.cons_append, lineColumnFrom, if_neg hpos, size_cons, Nat.add_sub_cancel_left, ih, List.foldl_cons]

theorem lineColumn_append (a b : Text) : lineColumn (a ++ b) (size a) = a.foldl advance (1, 1) :=
  lineColumnFrom_append ..

/-- A character moves the place on. -/
theorem lt_advance (place : Nat × Nat) (c : Char) : toLex place < toLex (advance place c) := by
  rw [Prod.Lex.toLex_lt_toLex, advance]
  split
  · exact .inl (Nat.lt_succ_self _)
  · exact .inr ⟨rfl, Nat.lt_succ_self _⟩

theorem le_foldl_advance (place : Nat × Nat) (a : Text) : toLex place ≤ toLex (a.foldl advance place) := by
  induction a generalizing place with
  | nil => exact le_rfl
  | cons c a ih => exact (lt_advance place c).le.trans (ih _)

theorem lt_foldl_advance (place : Nat × Nat) {a : Text} (ha : a ≠ []) : toLex place < toLex (a.foldl advance place) := by
  cases a with
  | nil => exact absurd rfl ha
  | cons c a => exact (lt_advance place c).trans_le (le_foldl_advance _ a)

/-! ### What the place says -/

/-- The last line of a text is all of it, or what follows its last line feed. -/
theorem lastLine_cases (a : Text) :
    '\n' ∉ lastLine a ∧ (a = lastLine a ∨ ∃ ahead, a = ahead ++ '\n' :: lastLine a) := by
  induction a using List.reverseRecOn with
  | nil => exact ⟨List.not_mem_nil, .inl rfl⟩
  | append_singleton a c ih =>
    obtain ⟨hline, hcases⟩ := ih
    rw [lastLine_concat]
    split
    · next hc => exact ⟨List.not_mem_nil, .inr ⟨a, by rw [hc]⟩⟩
    · next hc =>
      refine ⟨fun hmem => ?_, hcases.imp (fun h => ?_) ?_⟩
      · rcases List.mem_append.mp hmem with h | h
        · exact hline h
        · exact hc (List.mem_singleton.mp h).symm
      · rw [← h]
      · rintro ⟨ahead, h⟩
        exact ⟨ahead, by rw [← List.cons_append, ← List.append_assoc, ← h]⟩

theorem foldl_advance (a : Text) : a.foldl advance (1, 1) = (1 + a.count '\n', 1 + a.lastLine.length) := by
  induction a using List.reverseRecOn with
  | nil => rfl
  | append_singleton a c ih =>
    rw [List.foldl_append, ih, List.foldl_cons, List.foldl_nil, lastLine_concat, List.count_append, List.count_singleton,
      advance]
    split
    · next hc => simp [hc, Nat.add_assoc]
    · next hc => simp [hc, Nat.add_assoc]

/-! ### Main statement -/

/-- Offsets between characters, from the first to the one behind the last, have lines and columns in the same order as they
have themselves. The line is one more than the number of line feeds ahead, and the column one more than the number of
characters between the offset and the last line feed ahead of it, or the start of the text. -/
theorem lineColumn_exact (t : Text) :
    StrictMonoOn (fun i => toLex (t.lineColumn i)) {i | t.isBoundary i = true} ∧
      ∀ i, t.isBoundary i = true → ∃ line, '\n' ∉ line ∧
        (t.before i = line ∨ ∃ ahead, t.before i = ahead ++ '\n' :: line) ∧
        t.lineColumn i = (1 + (t.before i).count '\n', 1 + line.length) := by
  refine ⟨fun i hi j hj hij => ?_, fun i hi => ?_⟩
  · obtain ⟨a, b, rfl, rfl⟩ := isBoundary_iff.mp hi
    obtain ⟨c, d, hcd, rfl⟩ := isBoundary_iff.mp hj
    obtain ⟨m, rfl, rfl⟩ := append_eq_append_of_size_le hcd hij.le
    have hm : m ≠ [] := by
      rintro rfl
      rw [List.append_nil] at hij
      exact lt_irrefl _ hij
    dsimp only
    rw [lineColumn_append, hcd, lineColumn_append, List.foldl_append]
    exact lt_foldl_advance _ hm
  · obtain ⟨a, b, rfl, rfl⟩ := isBoundary_iff.mp hi
    rw [before_append_size, lineColumn_append, foldl_advance]
    exact ⟨a.lastLine, (lastLine_cases a).1, (lastLine_cases a).2, rfl⟩

/-- Two lines, each of which begins with a character of two bytes. -/
def accentedLines : Text := ['é', '\n', 'ü', 'b']

/-- The end of the first line, and behind the first character of the second. -/
theorem accentedLines_ordered :
    accentedLines.isBoundary 2 = true ∧ accentedLines.isBoundary 5 = true ∧
      toLex (accentedLines.lineColumn 2) < toLex (accentedLines.lineColumn 5) ∧
      accentedLines.lineColumn 2 = (1, 2) ∧ accentedLines.lineColumn 5 = (2, 2) ∧
      ∃ line, '\n' ∉ line ∧
        (accentedLines.before 5 = line ∨ ∃ ahead, accentedLines.before 5 = ahead ++ '\n' :: line) ∧
        accentedLines.lineColumn 5 = (1 + (accentedLines.before 5).count '\n', 1 + line.length) :=
  ⟨by decide, by decide, (lineColumn_exact accentedLines).1 (by decide) (by decide) (by decide), by decide, by decide,
    (lineColumn_exact accentedLines).2 5 (by decide)⟩

end Reprint.Text
