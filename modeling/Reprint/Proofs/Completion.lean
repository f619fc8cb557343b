import Mathlib
import Reprint.Proofs.Joining
/-!
Completing the junction of two texts. A separator is blanks around a core. Where there is a core, it is looked for on both
sides of the junction, blanks apart, and what is missing is put in with blanks only where there are none. A separator of
blanks alone is looked for among the blanks at the junction. Main statement: afterwards the separator is there, nothing
but indentation is lost, and another attempt adds nothing.
-/

namespace Reprint

namespace Text

/-- The blanks at the junction of two texts. -/
def seam (left right : Text) : Text := left.trailingBlanks ++ right.leadingBlanks

theorem seam_append_blank {left sep right : Text} (h : sep.allBlank = true) :
    seam (left ++ sep) right = left.trailingBlanks ++ sep ++ right.leadingBlanks := by
  rw [seam, trailingBlanks_append_blank h]

end Text

namespace Separator
open Text

variable {left sep right : Text}

/-- Nothing, or a separator that may be without blanks at its ends. -/
def Trimmed (sep s : Text) : Prop :=
  s = [] ∨ s = sep ∨ s = sep.trimStart ∨ s = sep.trimEnd ∨ s = sep.trimStart.trimEnd

theorem trimmed_glue (out sep t : Text) : Trimmed sep (glue out sep t).1 := by
  rcases (glue_cases out sep t).1 with h | h | h
  · exact .inl h
  · exact .inr (.inl h)
  · rw [h, fit]
    split <;> split <;> simp [Trimmed]

/-! ### A core -/

/-- A separator that is put in has blanks only where the neighbour has none. -/
theorem fit_eq (h : sep.trim ≠ []) : fit left sep right =
    (if left.trailingBlanks = [] then sep.leadingBlanks else []) ++ sep.trim ++
      (if right.leadingBlanks = [] then sep.trailingBlanks else []) := by
  have hcore : Text.trimEnd (sep.trim ++ sep.trailingBlanks) = sep.trim := by
    rw [trimEnd_append_blank (allBlank_trailingBlanks sep), trim, trimEnd_trimEnd]
  simp only [fit, List.isEmpty_iff]
  split <;> split
  · exact (blanks_around_trim h).symm
  · rw [trimStart_eq h, List.nil_append]
  · rw [trimEnd_eq h, List.append_nil]
  · rw [trimStart_eq h, hcore, List.nil_append, List.append_nil]

/-- Whether one of two texts has a core at their junction, blanks apart. -/
def CorePresent (core left right : Text) : Prop := core <:+ left.trimEnd ∨ core <+: right.trimStart

theorem glue_core (h : sep.trim ≠ []) : (CorePresent sep.trim left right → (glue left sep right).1 = []) ∧
    (¬CorePresent sep.trim left right → glue left sep right = (fit left sep right, right)) := by
  have hempty : sep.trim.isEmpty = false := by simpa using h
  have hends : sep.trim.isSuffixOf left = true → CorePresent sep.trim left right := fun hsuffix =>
    .inl (suffix_trimEnd (trimEnd_trimEnd _) h (List.isSuffixOf_iff_suffix.mp hsuffix))
  have hpresent : (sep.trim.isSuffixOf left.trimEnd || sep.trim.isPrefixOf right.trimStart) = true ↔
      CorePresent sep.trim left right := by
    rw [Bool.or_eq_true, List.isSuffixOf_iff_suffix, List.isPrefixOf_iff_prefix, CorePresent]
  simp only [glue, hempty, Bool.false_eq_true, if_false]
  split
  · -- An opening at the very end of the left text is also there with the blanks left out.
    next hopens =>
    have hcore := hends (Bool.and_eq_true_iff.mp hopens).1
    exact ⟨fun _ => rfl, fun habsent => absurd hcore habsent⟩
  · exact ⟨fun hcore => by rw [if_pos (hpresent.mpr hcore)], fun habsent => by rw [if_neg (mt hpresent.mp habsent)]⟩

/-- A separator with a core is put in exactly if neither side has the core. -/
theorem glue_eq_nil_iff (h : sep.trim ≠ []) : (glue left sep right).1 = [] ↔ CorePresent sep.trim left right := by
  refine ⟨fun hnone => ?_, (glue_core h).1⟩
  by_contra habsent
  rw [(glue_core h).2 habsent, fit_eq h] at hnone
  exact h (List.append_eq_nil_iff.mp (List.append_eq_nil_iff.mp hnone).1).2

theorem corePresent_glue (h : sep.trim ≠ []) :
    CorePresent sep.trim (left ++ (glue left sep right).1) (glue left sep right).2 := by
  by_cases hcore : CorePresent sep.trim left right
  · rw [(glue_core h).1 hcore, List.append_nil]
    rcases (glue_cases left sep right).2 with hrest | hrest
    · rwa [hrest]
    · rwa [hrest, CorePresent, trimStart_dropWhile_isIndent]
  · rw [(glue_core h).2 hcore, fit_eq h]
    -- The core was put in, and only blanks can follow it.
    refine .inl ?_
    rw [← List.append_assoc, trimEnd_append_blank, ← List.append_assoc]
    · exact suffix_trimEnd (trimEnd_trimEnd _) h (List.suffix_append ..)
    · split
      · exact allBlank_trailingBlanks sep
      · rfl

/-! ### Blanks -/

theorem glue_blank (h : sep.trim = []) :
    glue left sep right = (if blankPresent left sep right then [] else sep, right) := by
  rw [glue, h, List.isEmpty_nil, if_pos rfl]

theorem blankPresent_iff : blankPresent left sep right = true ↔
    ('\n' ∈ sep → '\n' ∈ seam left right) ∧ ('\n' ∉ sep → left = [] ∨ seam left right ≠ []) := by
  by_cases hline : '\n' ∈ sep
  · simp [blankPresent, hasLineFeed, hline, seam]
  · simp [blankPresent, hasLineFeed, hline, seam, Classical.or_iff_not_imp_left]

/-- A separator of blanks is there once it was put in. -/
theorem blankPresent_append (h : sep.allBlank = true) (hne : sep ≠ []) : blankPresent (left ++ sep) sep right = true := by
  rw [blankPresent_iff, seam_append_blank h]
  refine ⟨fun hline => ?_, fun _ => .inr fun hnone => ?_⟩
  · exact List.mem_append_left _ (List.mem_append_right _ hline)
  · exact hne (List.append_eq_nil_iff.mp (List.append_eq_nil_iff.mp hnone).1).2

theorem blankPresent_glue (h : sep.trim = []) (hne : sep ≠ []) :
    blankPresent (left ++ (glue left sep right).1) sep (glue left sep right).2 = true := by
  rw [glue_blank h]
  by_cases hpresent : blankPresent left sep right = true
  · rwa [if_pos hpresent, List.append_nil]
  · rw [if_neg hpresent]
    exact blankPresent_append (trim_eq_nil_iff.mp h) hne

/-! ### Both -/

/-- Another attempt adds nothing. -/
theorem glue_again (left sep right : Text) :
    (glue (left ++ (glue left sep right).1) sep (glue left sep right).2).1 = [] := by
  by_cases hcore : sep.trim = []
  · rw [glue_blank hcore]
    by_cases hne : sep = []
    · rw [hne, ite_self]
    · rw [if_pos (blankPresent_glue hcore hne)]
  · exact (glue_eq_nil_iff hcore).mpr (corePresent_glue hcore)

theorem unindented_glue (left sep right : Text) :
    ∃ dropped, (∀ c ∈ dropped, isIndent c = true) ∧ right = dropped ++ (glue left sep right).2 := by
  rcases (glue_cases left sep right).2 with h | h
  · exact ⟨[], List.forall_mem_nil _, by rw [h, List.nil_append]⟩
  · exact ⟨right.takeWhile isIndent, fun c hc => List.mem_takeWhile_imp hc,
      by rw [h, List.takeWhile_append_dropWhile]⟩

/-- Texts between which a separator has its place: what is put in, and what is left of the right text. -/
structure Completed (left sep right inserted rest : Text) : Prop where
  unindented : ∃ dropped, (∀ c ∈ dropped, isIndent c = true) ∧ right = dropped ++ rest
  trimmed : Trimmed sep inserted
  core : sep.trim ≠ [] → sep.trim <:+ (left ++ inserted).trimEnd ∨ sep.trim <+: rest.trimStart
  lineFeed : sep.trim = [] → '\n' ∈ sep → '\n' ∈ seam (left ++ inserted) rest
  blank : sep.trim = [] → sep ≠ [] → left ≠ [] → seam (left ++ inserted) rest ≠ []
  /-- Where a core is there already, nothing is put in. -/
  spareCore : sep.trim ≠ [] → sep.trim <:+ left.trimEnd ∨ sep.trim <+: right.trimStart → inserted = []
  /-- The same for blanks. -/
  spareBlank : sep.trim = [] → seam left right ≠ [] → ('\n' ∈ sep → '\n' ∈ seam left right) → inserted = []
  /-- Another attempt adds nothing. -/
  again : (glue (left ++ inserted) sep rest).1 = []

/-- Whatever the texts and the separator are, their junction is complete afterwards. -/
theorem glue_completes (left sep right : Text) :
    Completed left sep right (glue left sep right).1 (glue left sep right).2 where
  unindented := unindented_glue left sep right
  trimmed := trimmed_glue left sep right
  core := corePresent_glue
  lineFeed hcore hline := (blankPresent_iff.mp (blankPresent_glue hcore (List.ne_nil_of_mem hline))).1 hline
  blank hcore hne hleft := by
    have hpresent := blankPresent_iff.mp (@blankPresent_glue left sep right hcore hne)
    by_cases hline : '\n' ∈ sep
    · exact List.ne_nil_of_mem (hpresent.1 hline)
    · exact (hpresent.2 hline).resolve_left fun hnil => hleft (List.append_eq_nil_iff.mp hnil).1
  spareCore hcore := (glue_eq_nil_iff hcore).mpr
  spareBlank hcore hne hline := by
    have hpresent : blankPresent left sep right = true := blankPresent_iff.mpr ⟨hline, fun _ => .inr hne⟩
    rw [glue_blank hcore, if_pos hpresent]
  again := glue_again left sep right

end Separator

end Reprint
