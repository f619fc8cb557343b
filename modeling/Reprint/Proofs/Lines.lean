import Reprint.Proofs.Blanks
/-!
Lines, and the indentation they begin with. A text is its lines with line feeds between them, and exchanging the indentation
of all lines but the first is done line by line. A line that begins with the deeper of two nested indentations begins with
the other one as well, and an indentation that was put in is found again. Main statement: exchanging one indentation for
a deeper one and that one for a third is exchanging the first for the third, and every change can be taken back.
-/

namespace Reprint

theorem intercalate_cons_flatMap {α : Type} (sep a : List α) (l : List (List α)) :
    sep.intercalate (a :: l) = a ++ l.flatMap (sep ++ ·) := by
  induction l generalizing a with
  | nil => simp
  | cons b l ih => simp [ih]

namespace Text

/-! ### Lines -/

section Lines
variable {t first : Text} {rest : List Text}

theorem splitOn_of_not_mem {sep : Char} (h : sep ∉ t) : t.splitOn sep = [t] := by
  induction t with
  | nil => rfl
  | cons c t ih =>
    have hc : c ≠ sep := fun hc => h (hc ▸ List.mem_cons_self ..)
    rw [splitOn, if_neg hc, ih fun ht => h (List.mem_cons_of_mem _ ht)]

theorem splitOn_append_cons (a b : Text) (sep : Char) :
    splitOn (a ++ sep :: b) sep = splitOn a sep ++ splitOn b sep := by
  induction a with
  | nil => exact if_pos rfl
  | cons c a ih =>
    rw [List.cons_append, splitOn, splitOn, ih]
    split
    · rfl
    · cases hsplit : splitOn a sep with
      | nil => exact absurd hsplit (splitOn_ne_nil a sep)
      | cons first rest => rfl

theorem not_mem_of_mem_splitOn {l : Text} {sep : Char} (h : l ∈ t.splitOn sep) : sep ∉ l := by
  induction t generalizing l with
  | nil =>
    rw [List.mem_singleton.mp h]
    exact List.not_mem_nil
  | cons c t ih =>
    rw [splitOn] at h
    split at h
    · rcases List.mem_cons.mp h with rfl | h
      · exact List.not_mem_nil
      · exact ih h
    · rename_i hc
      cases hsplit : splitOn t sep with
      | nil => exact absurd hsplit (splitOn_ne_nil t sep)
      | cons first rest =>
        rw [hsplit] at h ih
        rcases List.mem_cons.mp h with rfl | h
        · exact List.not_mem_cons_of_ne_of_not_mem (Ne.symm hc) (ih (List.mem_cons_self ..))
        · exact ih (List.mem_cons_of_mem _ h)

/-- Lines that were put together are told apart again. -/
theorem lines_flatMap (hfirst : '\n' ∉ first) (hrest : ∀ l ∈ rest, '\n' ∉ l) :
    lines (first ++ rest.flatMap ('\n' :: ·)) = first :: rest := by
  induction rest generalizing first with
  | nil =>
    rw [List.flatMap_nil, List.append_nil]
    exact splitOn_of_not_mem hfirst
  | cons l rest ih =>
    rw [List.flatMap_cons, List.cons_append, lines, splitOn_append_cons, splitOn_of_not_mem hfirst]
    exact congrArg (first :: ·)
      (ih (hrest l (List.mem_cons_self ..)) fun k hk => hrest k (List.mem_cons_of_mem _ hk))

theorem lines_append {a : Text} (ha : '\n' ∉ a) (h : t.lines = first :: rest) : lines (a ++ t) = (a ++ first) :: rest := by
  induction a with
  | nil => exact h
  | cons c a ih =>
    have hc : c ≠ '\n' := fun hc => ha (hc ▸ List.mem_cons_self ..)
    have htail := ih fun hmem => ha (List.mem_cons_of_mem _ hmem)
    rw [lines] at htail
    rw [lines, List.cons_append, splitOn, if_neg hc, htail]
    rfl

theorem exists_lines (t : Text) : ∃ first rest, t.lines = first :: rest :=
  List.exists_cons_of_ne_nil (splitOn_ne_nil t '\n')

/-- The lines of a text, put together again. -/
theorem flatMap_lines (h : t.lines = first :: rest) : first ++ rest.flatMap ('\n' :: ·) = t := by
  induction t generalizing first rest with
  | nil =>
    obtain ⟨rfl, rfl⟩ := List.cons.inj h
    rfl
  | cons c t ih =>
    obtain ⟨line, rest', ht⟩ := exists_lines t
    have hsplit : lines (c :: t) = if c = '\n' then [] :: line :: rest' else (c :: line) :: rest' := by
      rw [lines] at ht
      rw [lines, splitOn, ht]
    rw [hsplit] at h
    split at h
    · next hc =>
      obtain ⟨rfl, rfl⟩ := List.cons.inj h
      rw [List.flatMap_cons, List.nil_append, List.cons_append, ih ht, hc]
    · obtain ⟨rfl, rfl⟩ := List.cons.inj h
      rw [List.cons_append, ih ht]

end Lines

/-! ### One line -/

section Line
variable {line rest old new a b c : Text}

theorem reindentLine_of_allBlank (h : line.allBlank = true) : reindentLine line old new = line := if_pos h

theorem reindentLine_of_shallow (h : ¬old <+: line) : reindentLine line old new = line := by
  rw [reindentLine, if_neg (mt List.isPrefixOf_iff_prefix.mp h), ite_self]

theorem reindentLine_append (h : (old ++ rest).allBlank = false) : reindentLine (old ++ rest) old new = new ++ rest := by
  rw [reindentLine, h, if_neg Bool.false_ne_true, if_pos (List.isPrefixOf_iff_prefix.mpr (List.prefix_append ..)),
    List.drop_left]

/-- A line stays as it is, or the old indentation at its beginning is exchanged. -/
theorem reindentLine_cases (line old : Text) : line.allBlank = true ∨ ¬old <+: line ∨
    ∃ rest, line = old ++ rest ∧ (old ++ rest).allBlank = false := by
  by_cases hblank : line.allBlank = true
  · exact .inl hblank
  · by_cases hprefix : old <+: line
    · obtain ⟨rest, rfl⟩ := hprefix
      exact .inr (.inr ⟨rest, rfl, Bool.eq_false_iff.mpr hblank⟩)
    · exact .inr (.inl hprefix)

theorem reindentLine_self (line old : Text) : reindentLine line old old = line := by
  rcases reindentLine_cases line old with h | h | ⟨rest, rfl, h⟩
  · exact reindentLine_of_allBlank h
  · exact reindentLine_of_shallow h
  · exact reindentLine_append h

/-- A line that got a deeper indentation has it exchanged for a third. -/
theorem reindentLine_reindentLine (ha : a.allBlank = true) (hab : a <+: b) :
    reindentLine (reindentLine line a b) b c = reindentLine line a c := by
  rcases reindentLine_cases line a with h | h | ⟨rest, rfl, h⟩
  · simp only [reindentLine_of_allBlank h]
  · -- What does not begin with `a` does not begin with `b` either.
    have hb : ¬b <+: line := fun hb => h (hab.trans hb)
    rw [reindentLine_of_shallow h, reindentLine_of_shallow hb, reindentLine_of_shallow h]
  · have hrest : rest.allBlank = false := by simpa [allBlank, List.all_append, show a.all isBlank = true from ha] using h
    have hb : (b ++ rest).allBlank = false := by
      rw [allBlank, List.all_append, ← allBlank, ← allBlank, hrest, Bool.and_false]
    rw [reindentLine_append h, reindentLine_append hb, reindentLine_append h]

theorem not_mem_reindentLine (hline : '\n' ∉ line) (hnew : '\n' ∉ new) : '\n' ∉ reindentLine line old new := by
  rcases reindentLine_cases line old with h | h | ⟨rest, rfl, h⟩
  · rwa [reindentLine_of_allBlank h]
  · rwa [reindentLine_of_shallow h]
  · rw [reindentLine_append h]
    exact fun hmem => (List.mem_append.mp hmem).elim hnew fun hrest => hline (List.mem_append_right _ hrest)

end Line

/-! ### All lines but the first -/

section Reindent
variable {t first old new a b c : Text} {rest : List Text}

theorem reindent_eq (h : t.lines = first :: rest) :
    t.reindent old new = first ++ (rest.map (reindentLine · old new)).flatMap ('\n' :: ·) := by
  rw [reindent, h, List.flatMap_map]

/-- A line is indented unless it is blank. -/
theorem indentLines_break (indent : Text) (ha : '\n' ∉ a) (h : t.lines = first :: rest) :
    indentLines (a ++ '\n' :: t) indent =
      a ++ '\n' :: ((if first.allBlank then [] else indent) ++ indentLines t indent) := by
  have hlines : lines (a ++ '\n' :: t) = a :: first :: rest := by
    rw [lines, splitOn_append_cons, splitOn_of_not_mem ha]
    exact congrArg (a :: ·) h
  have hfirst : reindentLine first [] indent = (if first.allBlank then [] else indent) ++ first := by
    cases hblank : first.allBlank with
    | true => exact reindentLine_of_allBlank hblank
    | false => exact reindentLine_append (show allBlank ([] ++ first) = false from hblank)
  rw [indentLines, reindent_eq hlines, indentLines, reindent_eq h, List.map_cons, List.flatMap_cons, hfirst]
  simp

/-- The lines of a text whose indentation was exchanged. -/
theorem lines_reindent (hnew : '\n' ∉ new) (h : t.lines = first :: rest) :
    (t.reindent old new).lines = first :: rest.map (reindentLine · old new) := by
  have hclean : ∀ l ∈ first :: rest, '\n' ∉ l := fun l hl => not_mem_of_mem_splitOn (h ▸ hl : l ∈ t.lines)
  obtain ⟨hfirst, hrest⟩ := List.forall_mem_cons.mp hclean
  rw [reindent_eq h]
  refine lines_flatMap hfirst fun l hl => ?_
  obtain ⟨k, hk, rfl⟩ := List.mem_map.mp hl
  exact not_mem_reindentLine (hrest k hk) hnew

theorem reindent_self (t old : Text) : t.reindent old old = t := by
  obtain ⟨first, rest, h⟩ := exists_lines t
  have hsame : rest.map (reindentLine · old old) = rest := by
    simp only [reindentLine_self, List.map_id']
  rw [reindent_eq h, hsame, flatMap_lines h]

theorem reindent_reindent (ha : a.allBlank = true) (hb : '\n' ∉ b) (hab : a <+: b) (t c : Text) :
    (t.reindent a b).reindent b c = t.reindent a c := by
  obtain ⟨first, rest, h⟩ := exists_lines t
  rw [reindent_eq (lines_reindent hb h), reindent_eq h, List.map_map]
  congr 2
  exact List.map_congr_left fun line _ => reindentLine_reindentLine ha hab

theorem length_lines_reindent (hnew : '\n' ∉ new) (t old : Text) :
    (t.reindent old new).lines.length = t.lines.length := by
  obtain ⟨first, rest, h⟩ := exists_lines t
  rw [lines_reindent hnew h, h, List.length_cons, List.length_cons, List.length_map]

theorem getElem?_lines_reindent (hnew : '\n' ∉ new) (t old : Text) (i : Nat) :
    (t.reindent old new).lines[i]? = t.lines[i]?.map fun line => if i = 0 then line else reindentLine line old new := by
  obtain ⟨first, rest, h⟩ := exists_lines t
  rw [lines_reindent hnew h, h]
  cases i with
  | zero => rfl
  | succ i => simp

end Reindent

/-- Indentation that is exchanged twice. From an indentation to a deeper one that begins with it and on to a third is as
far as from the first to the third, and back again is nowhere. Lines stay lines: the first one, blank ones and those
that do not begin with the old indentation stay as they are, and all others have it exchanged. -/
theorem reindent_composes (t a b c : Text) (ha : ∀ x ∈ a, isIndent x = true) (hb : ∀ x ∈ b, isIndent x = true)
    (hc : ∀ x ∈ c, isIndent x = true) (hab : a <+: b) :
    (t.reindent a b).reindent b c = t.reindent a c ∧ (t.reindent a b).reindent b a = t ∧
    (t.reindent a c).lines.length = t.lines.length ∧
    (∀ i (line : Text), t.lines[i]? = some line → i = 0 ∨ line.allBlank = true ∨ ¬a <+: line →
      (t.reindent a c).lines[i]? = some line) ∧
    (∀ i (rest : Text), i ≠ 0 → t.lines[i]? = some (a ++ rest) → (a ++ rest).allBlank = false →
      (t.reindent a c).lines[i]? = some (c ++ rest)) := by
  obtain ⟨hblank, -⟩ := allBlank_of_isIndent (List.all_eq_true.mpr ha)
  obtain ⟨-, hb⟩ := allBlank_of_isIndent (List.all_eq_true.mpr hb)
  obtain ⟨-, hc⟩ := allBlank_of_isIndent (List.all_eq_true.mpr hc)
  have hback : (t.reindent a b).reindent b a = t :=
    (reindent_reindent hblank hb hab t a).trans (reindent_self t a)
  refine ⟨reindent_reindent hblank hb hab t c, hback, length_lines_reindent hc t a, ?_, ?_⟩
  · intro i line hline hkept
    rw [getElem?_lines_reindent hc, hline, Option.map_some]
    rcases hkept with h | h | h
    · rw [if_pos h]
    · rw [reindentLine_of_allBlank h, ite_self]
    · rw [reindentLine_of_shallow h, ite_self]
  · intro i rest hi hline hsolid
    rw [getElem?_lines_reindent hc, hline, Option.map_some, if_neg hi, reindentLine_append hsolid]

/-- Lines of a block with line breaks of two characters: one at the depth of the block, a blank one, one that is too
shallow and a deeper one. -/
def mixedLines : Text := "\x7b\r\n  a\r\n \t\r\n b\r\n    c".toList

/-- They move to four spaces, on to a tab, and back. -/
theorem mixedLines_reindented :
    "  ".toList <+: "    ".toList ∧
      mixedLines.reindent "  ".toList "    ".toList = "\x7b\r\n    a\r\n \t\r\n b\r\n      c".toList ∧
      (mixedLines.reindent "  ".toList "    ".toList).reindent "    ".toList "\t".toList =
        "\x7b\r\n\ta\r\n \t\r\n b\r\n\t  c".toList ∧
      (mixedLines.reindent "  ".toList "    ".toList).reindent "    ".toList "  ".toList = mixedLines := by
  have hdeeper : "  ".toList <+: "    ".toList := by decide
  have htwo : "  ".toList.all isIndent = true := by decide
  have hfour : "    ".toList.all isIndent = true := by decide
  have htab : "\t".toList.all isIndent = true := by decide
  obtain ⟨hthird, hback, -⟩ := reindent_composes mixedLines "  ".toList "    ".toList "\t".toList
    (List.all_eq_true.mp htwo) (List.all_eq_true.mp hfour) (List.all_eq_true.mp htab) hdeeper
  refine ⟨hdeeper, by decide +kernel, hthird.trans ?_, hback⟩
  decide +kernel

end Text

end Reprint
