import Mathlib
import Reprint.Proofs.Completion
import Reprint.Text.Word
/-!
Keywords between two texts. Four separators of the table have a word as their core. Whether the keyword is there already is
asked of the text on both sides, not of its words, so a name that ends or begins with the letters of the keyword passes
for it. Main statement: a keyword is put in, with blanks around it, exactly if no word at the junction ends or begins with
it; that is, exactly if the keyword is no word at the junction, unless a longer word there masks it.
-/

namespace Reprint

namespace Text

/-- Whether a text is a single word. -/
def isWord (t : Text) : Bool := !t.isEmpty && t.all isWordChar

/-- The word that a text ends in, blanks apart, for some notion of what a word is made of. -/
def lastWord (ident : Char → Bool) (t : Text) : Text := (t.trimEnd.reverse.takeWhile ident).reverse

/-- The word that a text begins with, blanks apart. -/
def firstWord (ident : Char → Bool) (t : Text) : Text := t.trimStart.takeWhile ident

section Words
variable {ident : Char → Bool} {k t : Text}

theorem prefix_takeWhile_iff (hk : ∀ c ∈ k, ident c = true) : k <+: t.takeWhile ident ↔ k <+: t := by
  constructor
  · exact fun h => h.trans (List.takeWhile_prefix ident)
  · rintro ⟨y, rfl⟩
    rw [List.takeWhile_append_of_pos hk]
    exact List.prefix_append ..

theorem prefix_firstWord_iff (hk : ∀ c ∈ k, ident c = true) : k <+: firstWord ident t ↔ k <+: t.trimStart :=
  prefix_takeWhile_iff hk

theorem suffix_lastWord_iff (hk : ∀ c ∈ k, ident c = true) : k <:+ lastWord ident t ↔ k <:+ t.trimEnd := by
  have hreverse : ∀ c ∈ k.reverse, ident c = true := fun c hc => hk c (List.mem_reverse.mp hc)
  rw [← List.reverse_prefix, ← List.reverse_prefix, lastWord, List.reverse_reverse, prefix_takeWhile_iff hreverse]

end Words

end Text

namespace Separator
open Text

/-! ### The table -/

/-- What the table has to offer. -/
def tokens : List String :=
  ["(", ", ", " with ", " extends ", " match \x7b", " if ", " => ", " ", " else ", ".", ": ", " @ ", " = ", "["]

/-- The separators whose core is a word. -/
def wordSeparators : List Text := [" else ", " with ", " extends ", " if "].map String.toList

theorem between_mem (parent left right : Node) : between parent left right ∈ lineBreak :: tokens.map token := by
  unfold between
  split <;> repeat' split
  all_goals decide

theorem mem_wordSeparators {parent left right : Node} {s : String} (h : between parent left right = .token s)
    (hword : isWord (Text.trim s.toList) = true) : s.toList ∈ wordSeparators := by
  have htokens : (tokens.all fun x => !isWord (Text.trim x.toList) || wordSeparators.contains x.toList) = true := by
    decide +kernel
  have hs : s ∈ tokens := by simpa [h] using between_mem parent left right
  simpa [hword] using List.all_eq_true.mp htokens s hs

theorem of_mem_wordSeparators {sep : Text} (h : sep ∈ wordSeparators) : sep.leadingBlanks = [' '] ∧
    sep.trailingBlanks = [' '] ∧ sep.trim ≠ [] ∧ sep.getLast?.any isBlank = true ∧ ∀ c ∈ sep.trim, isWordChar c = true := by
  have hall : (wordSeparators.all fun sep => sep.leadingBlanks == [' '] && sep.trailingBlanks == [' '] &&
      isWord sep.trim && sep.getLast?.any isBlank) = true := by
    decide +kernel
  have hsep := List.all_eq_true.mp hall sep h
  simp only [isWord, Bool.and_eq_true, beq_iff_eq, Bool.not_eq_true', List.isEmpty_eq_false_iff, List.all_eq_true] at hsep
  obtain ⟨⟨⟨hlead, htrail⟩, hne, hword⟩, hlast⟩ := hsep
  exact ⟨hlead, htrail, hne, hlast, hword⟩

/-! ### Putting a keyword in -/

variable {ident : Char → Bool} {k left right sep : Text}

/-- A keyword that was put between two texts, with blanks on both of its sides. -/
def Detached (k left inserted right : Text) : Prop :=
  ∃ a b : Text, inserted = a ++ k ++ b ∧ a.allBlank = true ∧ b.allBlank = true ∧
    (left ++ a).trailingBlanks ≠ [] ∧ (b ++ right).leadingBlanks ≠ []

/-- A longer word at the junction has the letters of a keyword at this end of it, and the keyword itself is the word on
neither side. -/
structure Masked (ident : Char → Bool) (k left right : Text) : Prop where
  longer : k <:+ lastWord ident left ∨ k <+: firstWord ident right
  left : lastWord ident left ≠ k
  right : firstWord ident right ≠ k

theorem glue_snd_of_blank (h : sep.getLast?.any isBlank = true) : (glue left sep right).2 = right := by
  simp only [glue, h, Bool.not_true, Bool.and_false, Bool.false_eq_true, if_false]
  split
  · rfl
  · split <;> rfl

/-- A separator with blanks on both sides of its core keeps the core apart. -/
theorem detached_fit (hcore : sep.trim ≠ []) (hlead : sep.leadingBlanks ≠ []) (htrail : sep.trailingBlanks ≠ []) :
    Detached sep.trim left (fit left sep right) right := by
  -- On each side the blanks of the separator are left out only where the neighbour has blanks of its own.
  refine ⟨_, _, fit_eq hcore, ?_, ?_, ?_, ?_⟩
  · split
    · exact allBlank_leadingBlanks sep
    · rfl
  · split
    · exact allBlank_trailingBlanks sep
    · rfl
  · split
    · next hleft =>
      rw [trailingBlanks_append_blank (allBlank_leadingBlanks sep), hleft]
      exact hlead
    · next hleft => rwa [List.append_nil]
  · split
    · next hright =>
      rw [leadingBlanks_append_blank (allBlank_trailingBlanks sep), hright, List.append_nil]
      exact htrail
    · next hright => exact hright

theorem detached_glue_iff (hcore : sep.trim ≠ []) (hlead : sep.leadingBlanks ≠ []) (htrail : sep.trailingBlanks ≠ []) :
    Detached sep.trim left (glue left sep right).1 right ↔ ¬CorePresent sep.trim left right := by
  constructor
  · rintro ⟨a, b, hinserted, -⟩ hpresent
    rw [(glue_core hcore).1 hpresent] at hinserted
    exact hcore (List.append_eq_nil_iff.mp (List.append_eq_nil_iff.mp hinserted.symm).1).2
  · intro habsent
    rw [(glue_core hcore).2 habsent]
    exact detached_fit hcore hlead htrail

/-- The letters of a keyword are looked for in the words at the junction. -/
theorem corePresent_iff (hk : ∀ c ∈ k, ident c = true) :
    CorePresent k left right ↔ k <:+ lastWord ident left ∨ k <+: firstWord ident right := by
  rw [CorePresent, suffix_lastWord_iff hk, prefix_firstWord_iff hk]

theorem not_masked_iff : ¬Masked ident k left right ↔
    ((k <:+ lastWord ident left ∨ k <+: firstWord ident right) ↔ lastWord ident left = k ∨ firstWord ident right = k) := by
  have hwhole : lastWord ident left = k ∨ firstWord ident right = k →
      k <:+ lastWord ident left ∨ k <+: firstWord ident right := by
    rintro (h | h)
    · exact .inl (h ▸ List.suffix_refl k)
    · exact .inr (h ▸ List.prefix_refl k)
  constructor
  · intro hmasked
    refine ⟨fun hlonger => ?_, hwhole⟩
    by_contra hnone
    obtain ⟨hleft, hright⟩ := not_or.mp hnone
    exact hmasked ⟨hlonger, hleft, hright⟩
  · rintro hiff ⟨hlonger, hleft, hright⟩
    exact (hiff.mp hlonger).elim hleft hright

/-- Keywords at a junction. The separators of the table whose core is a word are `else`, `with`, `extends` and `if`, with
blanks around them. Whatever characters make up names, as long as word characters are among them: a keyword is put in
with blanks around it, or nothing is; it is put in exactly if the word on the left does not end with its letters and
the one on the right does not begin with them. So it is put in exactly if neither is the keyword itself, unless a longer
word masks it. -/
theorem keyword_put_in_unless_masked (ident : Char → Bool) (hident : ∀ c, isWordChar c = true → ident c = true) :
    (∀ parent left right s, between parent left right = .token s → isWord (Text.trim s.toList) = true →
      s.toList ∈ wordSeparators) ∧
    ∀ sep ∈ wordSeparators, ∀ left right, (glue left sep right).2 = right ∧
      ((glue left sep right).1 = [] ∨ Detached sep.trim left (glue left sep right).1 right) ∧
      (Detached sep.trim left (glue left sep right).1 right ↔
        ¬(sep.trim <:+ lastWord ident left ∨ sep.trim <+: firstWord ident right)) ∧
      ((Detached sep.trim left (glue left sep right).1 right ↔
          ¬(lastWord ident left = sep.trim ∨ firstWord ident right = sep.trim)) ↔
        ¬Masked ident sep.trim left right) := by
  refine ⟨fun parent left right s => mem_wordSeparators, fun sep hsep left right => ?_⟩
  obtain ⟨hlead, htrail, hcore, hlast, hword⟩ := of_mem_wordSeparators hsep
  have hput : Detached sep.trim left (glue left sep right).1 right ↔ ¬CorePresent sep.trim left right :=
    detached_glue_iff hcore (hlead.trans_ne (List.cons_ne_nil _ _)) (htrail.trans_ne (List.cons_ne_nil _ _))
  have hpresent : CorePresent sep.trim left right ↔
      sep.trim <:+ lastWord ident left ∨ sep.trim <+: firstWord ident right :=
    corePresent_iff fun c hc => hident c (hword c hc)
  refine ⟨glue_snd_of_blank hlast, ?_, hput.trans (not_congr hpresent), ?_⟩
  · rw [hput, ← glue_eq_nil_iff hcore]
    exact em _
  · rw [hput, hpresent, not_masked_iff, not_iff_not]

/-- Names that begin or end with the keyword on their far side do not count. -/
theorem keyword_put_between_lookalikes :
    " else ".toList ∈ wordSeparators ∧ ¬Masked isWordChar "else".toList "if (a) elsewhere".toList "orelse".toList ∧
      Detached "else".toList "if (a) elsewhere".toList
        (glue "if (a) elsewhere".toList " else ".toList "orelse".toList).1 "orelse".toList := by
  have hsep : " else ".toList ∈ wordSeparators := List.mem_cons_self ..
  have hcore : Text.trim " else ".toList = "else".toList := by decide
  obtain ⟨-, -, hput, hiff⟩ := (keyword_put_in_unless_masked isWordChar fun _ => id).2 _ hsep
    "if (a) elsewhere".toList "orelse".toList
  rw [hcore] at hput hiff
  have hletters : ¬("else".toList <:+ lastWord isWordChar "if (a) elsewhere".toList ∨
      "else".toList <+: firstWord isWordChar "orelse".toList) := by decide +kernel
  have hwhole : ¬(lastWord isWordChar "if (a) elsewhere".toList = "else".toList ∨
      firstWord isWordChar "orelse".toList = "else".toList) := by decide +kernel
  have hdetached := hput.mpr hletters
  exact ⟨hsep, hiff.mp (iff_of_true hdetached hwhole), hdetached⟩

/-- A name that ends with the letters of `else` swallows the keyword, and what follows joins the name. -/
theorem keyword_swallowed_by_name :
    glue "if (a) orelse".toList " else ".toList "x".toList = ([], "x".toList) ∧
      lastWord isWordChar "if (a) orelse".toList = "orelse".toList ∧ firstWord isWordChar "x".toList = "x".toList ∧
      ¬(Detached "else".toList "if (a) orelse".toList (glue "if (a) orelse".toList " else ".toList "x".toList).1
          "x".toList ↔
        ¬(lastWord isWordChar "if (a) orelse".toList = "else".toList ∨
          firstWord isWordChar "x".toList = "else".toList)) := by
  have hglue : glue "if (a) orelse".toList " else ".toList "x".toList = ([], "x".toList) := by decide +kernel
  have hlast : lastWord isWordChar "if (a) orelse".toList = "orelse".toList := by decide +kernel
  have hfirst : firstWord isWordChar "x".toList = "x".toList := by decide +kernel
  refine ⟨hglue, hlast, hfirst, fun hiff => ?_⟩
  rw [hglue, hlast, hfirst] at hiff
  obtain ⟨a, b, hnothing, -⟩ := hiff.mpr (by decide)
  simp at hnothing

end Separator

end Reprint
