import Reprint.Text.Indent
/-!
Blanks at the ends of a text. A text that is not blank is a core with blanks on both sides; what is put behind its core or
ahead of it, blanks or not, decides what trimming leaves of it.
-/

namespace Reprint.Text

variable {a b t : Text} {c : Char}

/-! ### Blank texts -/

theorem allBlank_append : (a ++ b).allBlank = true ↔ a.allBlank = true ∧ b.allBlank = true := by
  rw [allBlank, List.all_append, Bool.and_eq_true]
  rfl

theorem not_mem_of_allBlank (ht : t.allBlank = true) (hc : isBlank c = false) : c ∉ t := fun hmem => by
  rw [List.all_eq_true.mp ht c hmem] at hc
  cases hc

theorem isBlank_of_isIndent (h : isIndent c = true) : isBlank c = true := by
  simp only [isIndent, Bool.or_eq_true, beq_iff_eq] at h
  rcases h with rfl | rfl <;> decide

/-- Indentation is blank and stays on its line. -/
theorem allBlank_of_isIndent (h : b.all isIndent = true) : b.allBlank = true ∧ '\n' ∉ b := by
  rw [List.all_eq_true] at h
  exact ⟨List.all_eq_true.mpr fun c hc => isBlank_of_isIndent (h c hc), fun hmem => by cases h _ hmem⟩

/-! ### The beginning -/

theorem trimStart_append (ha : a.allBlank = true) (hc : isBlank c = false) :
    trimStart (a ++ c :: b) = c :: b ∧ leadingBlanks (a ++ c :: b) = a := by
  have ha : ∀ d ∈ a, isBlank d = true := List.all_eq_true.mp ha
  rw [trimStart, leadingBlanks, List.dropWhile_append_of_pos ha, List.takeWhile_append_of_pos ha]
  simp [hc]

theorem trimStart_blank (ha : a.allBlank = true) : a.trimStart = [] := by
  have hdrop : (a ++ []).dropWhile isBlank = [].dropWhile isBlank :=
    List.dropWhile_append_of_pos (List.all_eq_true.mp ha)
  simpa [trimStart] using hdrop

theorem leadingBlanks_append_blank (ha : a.allBlank = true) : (a ++ b).leadingBlanks = a ++ b.leadingBlanks := by
  rw [leadingBlanks, List.takeWhile_append_of_pos (List.all_eq_true.mp ha), leadingBlanks]

theorem isBlank_of_head?_trimStart (h : t.trimStart.head? = some c) : isBlank c = false := by
  have hhead := List.head?_dropWhile_not isBlank t
  rw [trimStart] at h
  rw [h] at hhead
  simpa using hhead

theorem trimStart_dropWhile_isIndent (t : Text) : trimStart (t.dropWhile isIndent) = t.trimStart := by
  induction t with
  | nil => rfl
  | cons c t ih =>
    by_cases hc : isIndent c = true
    · have hstep : trimStart (c :: t) = trimStart t := List.dropWhile_cons_of_pos (isBlank_of_isIndent hc)
      rw [List.dropWhile_cons_of_pos hc, hstep, ih]
    · rw [List.dropWhile_cons_of_neg hc]

/-! ### The end -/

theorem trimEnd_append_blank (hb : b.allBlank = true) : (a ++ b).trimEnd = a.trimEnd := by
  have hreverse : ∀ c ∈ b.reverse, isBlank c = true := fun c hc =>
    List.all_eq_true.mp hb c (List.mem_reverse.mp hc)
  rw [trimEnd, List.reverse_append, List.dropWhile_append_of_pos hreverse, trimEnd]

theorem trailingBlanks_append_blank (hb : b.allBlank = true) : (a ++ b).trailingBlanks = a.trailingBlanks ++ b := by
  have hreverse : ∀ c ∈ b.reverse, isBlank c = true := fun c hc =>
    List.all_eq_true.mp hb c (List.mem_reverse.mp hc)
  rw [trailingBlanks, List.reverse_append, List.takeWhile_append_of_pos hreverse, List.reverse_append,
    List.reverse_reverse, trailingBlanks]

theorem trimEnd_append (hb : b.allBlank = true) (hc : isBlank c = false) : trimEnd (a ++ c :: b) = a ++ [c] := by
  have hsplit : a ++ c :: b = a ++ [c] ++ b := by simp
  rw [hsplit, trimEnd_append_blank hb]
  simp [trimEnd, hc]

theorem isBlank_of_getLast?_trimEnd (h : t.trimEnd.getLast? = some c) : isBlank c = false := by
  have hlast := List.head?_dropWhile_not isBlank t.reverse
  rw [trimEnd, List.getLast?_reverse] at h
  rw [h] at hlast
  simpa using hlast

theorem trimEnd_trimEnd (t : Text) : t.trimEnd.trimEnd = t.trimEnd := by
  have h := congrArg trimEnd (trimEnd_append_trailingBlanks t)
  rwa [trimEnd_append_blank (allBlank_trailingBlanks t)] at h

/-- Nothing ahead of a text is trimmed with its end, unless the text is blank. -/
theorem trimEnd_append_of_ne_nil (h : t.trimEnd ≠ []) : (a ++ t).trimEnd = a ++ t.trimEnd := by
  obtain ⟨x, c, hx⟩ : ∃ x c, t.trimEnd = x ++ [c] := ⟨_, _, (List.dropLast_concat_getLast h).symm⟩
  have hc : isBlank c = false := isBlank_of_getLast?_trimEnd (by rw [hx, List.getLast?_concat])
  calc (a ++ t).trimEnd = (a ++ t.trimEnd ++ t.trailingBlanks).trimEnd := by
        rw [List.append_assoc, trimEnd_append_trailingBlanks]
    _ = (a ++ x ++ [c]).trimEnd := by rw [trimEnd_append_blank (allBlank_trailingBlanks t), hx, List.append_assoc]
    _ = a ++ t.trimEnd := by rw [trimEnd_append rfl hc, hx, List.append_assoc]

/-- What a text ends in does not go with the blanks behind it, unless it ends in a blank itself. -/
theorem suffix_trimEnd (h : a.trimEnd = a) (hne : a ≠ []) (hsuffix : a <:+ t) : a <:+ t.trimEnd := by
  obtain ⟨x, rfl⟩ := hsuffix
  rw [trimEnd_append_of_ne_nil (h.symm ▸ hne), h]
  exact List.suffix_append ..

/-! ### The core -/

theorem trim_eq_nil_iff : t.trim = [] ↔ t.allBlank = true := by
  constructor
  · intro h
    have hstart := trimEnd_append_trailingBlanks t.trimStart
    rw [← trim, h, List.nil_append] at hstart
    rw [← leadingBlanks_append_trimStart t, allBlank_append, ← hstart]
    exact ⟨allBlank_leadingBlanks t, allBlank_trailingBlanks _⟩
  · intro h
    rw [trim, trimStart_blank h]
    rfl

theorem trimEnd_eq (h : t.trim ≠ []) : t.trimEnd = t.leadingBlanks ++ t.trim := by
  have hend := trimEnd_append_of_ne_nil (a := t.leadingBlanks) h
  rwa [leadingBlanks_append_trimStart] at hend

/-- A text that is not blank is its core with the blanks around it. -/
theorem blanks_around_trim (h : t.trim ≠ []) : t.leadingBlanks ++ t.trim ++ t.trailingBlanks = t := by
  rw [← trimEnd_eq h, trimEnd_append_trailingBlanks]

theorem trimStart_eq (h : t.trim ≠ []) : t.trimStart = t.trim ++ t.trailingBlanks := by
  have ht := (leadingBlanks_append_trimStart t).trans (blanks_around_trim h).symm
  rw [List.append_assoc] at ht
  exact List.append_cancel_left ht

/-- A text that is not blank decides how a longer one ends. -/
theorem getLast?_trimEnd_append {x : Text} (h : t.trimStart ≠ []) :
    (x ++ t).trimEnd.getLast? = t.trimEnd.getLast? := by
  have hend : t.trimEnd ≠ [] := fun hnil => by
    have hblank := trimEnd_append_trailingBlanks t
    rw [hnil, List.nil_append] at hblank
    exact h (trimStart_blank (hblank ▸ allBlank_trailingBlanks t))
  rw [trimEnd_append_of_ne_nil hend, List.getLast?_append, Option.or_of_isSome (List.getLast?_isSome.mpr hend)]

end Reprint.Text
